import WalletExchange.Proofs.Descriptor.Phrases

/-!
# Proofs — reading script functions

The specifications of the functions of the parser that read a script function.  An attempt at a kind
that the keyword does not name reads nothing, so the order in which the kinds are tried does not
matter; the kind that it does name reads its argument, which may be a script function again.  That a
function is read inside every parent is an induction along the recursion of `Parser.script`, which
goes down in the room that is left inside the parent.

Main statement:

* `reads_script` — `Parser.script` reads the script functions of the grammar.
-/

namespace WalletExchange.Parser

open Grammar

variable {p q : Parser} {parent : Option NodeKind}

/-! ### Arguments -/

theorem reads_expectMultisig (sorted : Bool) :
    Reads (expectMultisig sorted) (fun used m => ∃ kind ts, used = kind :: ts ∧
      Numeral kind m.threshold.toNat ∧ Keys ts m.keys ∧ 1 ≤ m.threshold.toNat ∧
      m.threshold.toNat ≤ m.keys.length ∧ m.keys.length ≤ 20 ∧ m.isSorted = sorted)
      [.comma, .slash, .hardened] where
  sound {p q m} h := by
    obtain ⟨threshold, r₁, hint, h⟩ := bind_eq_ok_iff.mp h
    obtain ⟨keys, r₂, hkeys, h⟩ := bind_eq_ok_iff.mp h
    obtain ⟨_, ⟨kind, rfl, hnumeral⟩, hspan₁⟩ := reads_expectInt.sound hint
    obtain ⟨ts, ⟨hts, -⟩, hspan₂⟩ := reads_expectKeys.sound hkeys
    by_cases hmax : Multisig.maxKeys < keys.length
    · rw [if_pos hmax] at h
      exact absurd h fail_bind_ne_ok
    · rw [if_neg hmax] at h
      by_cases hbad : threshold = 0 ∨ keys.length < threshold.toNat
      · rw [if_pos hbad] at h
        exact absurd h fail_bind_ne_ok
      · rw [if_neg hbad] at h
        obtain ⟨rfl, rfl⟩ := pure_eq_ok_iff.mp h
        have hzero : threshold.toNat ≠ 0 := fun h => hbad (.inl (UInt64.toNat_inj.mp h))
        refine ⟨kind :: ts, ⟨kind, ts, rfl, hnumeral, hts, ?_, ?_, ?_, rfl⟩, hspan₁.cons hspan₂⟩
        · exact Nat.one_le_iff_ne_zero.mpr hzero
        · exact Nat.le_of_not_lt fun h => hbad (.inr h)
        · exact Nat.le_of_not_lt hmax
  complete {p used more m} h hrest hbarred := by
    obtain ⟨kind, ts, rfl, hnumeral, hts, hone, hle, hmax, rfl⟩ := h
    obtain ⟨r₁, hint, hspan₁, hrest₁⟩ :=
      reads_expectInt.run ⟨kind, rfl, hnumeral⟩ hrest (noneNext_nil _)
    have hne : m.keys ≠ [] := by
      intro hnil
      rw [hnil] at hle
      exact absurd (Nat.le_trans hone hle) (by decide)
    obtain ⟨r₂, hkeys, hspan₂⟩ := reads_expectKeys.complete ⟨hts, hne⟩ hrest₁ hbarred
    have hfew : ¬ Multisig.maxKeys < m.keys.length := Nat.not_lt.mpr hmax
    have hbad : ¬ (m.threshold = 0 ∨ m.keys.length < m.threshold.toNat) := by
      rintro (hzero | hlt)
      · rw [hzero] at hone
        exact absurd hone (by decide)
      · exact Nat.not_lt.mpr hle hlt
    refine ⟨r₂, ?_, hspan₁.cons hspan₂⟩
    rw [expectMultisig, bind_of_ok hint, bind_of_ok hkeys, if_neg hfew, if_neg hbad]
    rfl

theorem reads_expectAddress : Reads expectAddress (fun used a => used = [.address a]) [] := by
  refine reads_expectedToken (fun _ => rfl) rfl fun used a => ⟨?_, ?_⟩
  · rintro rfl
    exact ⟨_, rfl, rfl⟩
  · rintro ⟨kind, rfl, hread⟩
    cases kind with
    | address _ => cases hread; rfl
    | keyword _ | data _ | int _ | wif _ | hdKey _ | mark _ => cases hread

theorem reads_expectRawScript :
    Reads expectRawScript (fun used s => used = [.data s.bytes] ∧ ∃ is, Script.Written is s.bytes)
      [] where
  sound {p q s} h := by
    obtain ⟨kind?, r, hpeek, h⟩ := bind_eq_ok_iff.mp h
    rw [peek?_eq] at hpeek
    cases hpeek
    cases hhead : p.rest.head? with
    | none => rw [hhead] at h; exact absurd h fail_ne_ok
    | some kind =>
        rw [hhead] at h
        obtain ⟨more, hmore⟩ := List.head?_eq_some_iff.mp hhead
        cases kind with
        | data bytes =>
            cases hwell : Script.isWellFormed ⟨bytes⟩ with
            | true =>
                simp only [hwell] at h
                cases h
                exact ⟨_, ⟨rfl, Script.isWellFormed_iff.mp hwell⟩, .next hmore⟩
            | false =>
                simp only [hwell] at h
                exact absurd h fail_ne_ok
        | keyword _ | int _ | wif _ | hdKey _ | address _ | mark _ => exact absurd h fail_ne_ok
  complete {p used more s} h hrest _ := by
    obtain ⟨rfl, hscript⟩ := h
    have hwell : Script.isWellFormed ⟨s.bytes⟩ = true := Script.isWellFormed_iff.mpr hscript
    refine ⟨p.next, ?_, .next hrest⟩
    rw [expectRawScript, bind_of_ok peek?_eq, hrest]
    simp only [List.cons_append, List.head?_cons, hwell]
    rfl

/-! ### Calls -/

theorem ofKeyword_keyword (f : KeyFunction) : NodeKind.ofKeyword f.keyword = .key f := by
  cases f <;> rfl

theorem call_inj {k k' : Keyword} {ts ts' : List TokenKind} (h : call k ts = call k' ts') :
    k = k' ∧ ts = ts' := by
  simpa [call] using h

/-- The argument of a keyword of a kind completes a script function of this kind. -/
theorem reads_argument {kind : NodeKind} {keyword : Keyword}
    {inner : kind.nests = true → ParserM Node} (hkind : NodeKind.ofKeyword keyword = kind)
    (allowed : kind.allowedIn parent = true)
    (hinner : ∀ nests, Reads (inner nests) (ScriptFunction (some kind)) []) :
    Reads (argument kind keyword inner) (fun used n => ScriptFunction parent (call keyword used) n)
      [.comma, .slash, .hardened] where
  sound {p q n} h := by
    cases kind with
    | raw =>
        obtain ⟨s, hraw, rfl⟩ := bind_pure_eq_ok_iff.mp h
        obtain ⟨_, ⟨rfl, is, hscript⟩, hspan⟩ := reads_expectRawScript.sound hraw
        obtain rfl : keyword = .raw := by cases keyword <;> first | rfl | cases hkind
        exact ⟨_, .raw allowed hscript, hspan⟩
    | key f =>
        obtain ⟨k, hkey, rfl⟩ := bind_pure_eq_ok_iff.mp h
        obtain ⟨used, hphrase, hspan⟩ := (reads_expectKey _).sound hkey
        obtain rfl : keyword = f.keyword := by cases keyword <;> cases hkind <;> rfl
        exact ⟨used, .key allowed hphrase, hspan⟩
    | multi =>
        obtain ⟨m, hmulti, rfl⟩ := bind_pure_eq_ok_iff.mp h
        obtain ⟨_, ⟨kind, ts, rfl, hnumeral, hkeys, hone, hle, hmax, hsorted⟩, hspan⟩ :=
          (reads_expectMultisig _).sound hmulti
        obtain rfl : keyword = if m.isSorted then .sortedmulti else .multi := by
          rw [hsorted]
          cases keyword <;> cases hkind <;> rfl
        exact ⟨_, .multi allowed hnumeral hkeys hone hle hmax, hspan⟩
    | wsh =>
        obtain ⟨n', hrun, rfl⟩ := bind_pure_eq_ok_iff.mp h
        obtain ⟨used, hphrase, hspan⟩ := (hinner rfl).sound hrun
        obtain rfl : keyword = .wsh := by cases keyword <;> first | rfl | cases hkind
        exact ⟨used, .wsh allowed hphrase, hspan⟩
    | sh =>
        obtain ⟨n', hrun, rfl⟩ := bind_pure_eq_ok_iff.mp h
        obtain ⟨used, hphrase, hspan⟩ := (hinner rfl).sound hrun
        obtain rfl : keyword = .sh := by cases keyword <;> first | rfl | cases hkind
        exact ⟨used, .sh allowed hphrase, hspan⟩
    | addr =>
        obtain ⟨a, haddress, rfl⟩ := bind_pure_eq_ok_iff.mp h
        obtain ⟨_, rfl, hspan⟩ := reads_expectAddress.sound haddress
        obtain rfl : keyword = .addr := by cases keyword <;> first | rfl | cases hkind
        exact ⟨_, .addr allowed, hspan⟩
  complete {p used more n} h hrest hbarred := by
    -- the derivation tells the keyword, and with it the kind
    generalize hcall : call keyword used = ts at h
    cases h with
    | raw _ hscript =>
        obtain ⟨rfl, rfl⟩ := call_inj hcall
        subst hkind
        obtain ⟨q, hraw, hspan⟩ :=
          reads_expectRawScript.complete (a := ⟨_⟩) ⟨rfl, _, hscript⟩ hrest (noneNext_nil more)
        exact ⟨q, bind_pure_eq_ok_iff.mpr ⟨_, hraw, rfl⟩, hspan⟩
    | @key _ f _ k _ hphrase =>
        obtain ⟨rfl, rfl⟩ := call_inj hcall
        obtain rfl := (ofKeyword_keyword f).symm.trans hkind
        obtain ⟨q, hkey, hspan⟩ := (reads_expectKey _).complete hphrase hrest
          (hbarred.mono (by decide))
        exact ⟨q, bind_pure_eq_ok_iff.mpr ⟨_, hkey, rfl⟩, hspan⟩
    | @multi _ sorted _ threshold _ keys _ hnumeral hkeys hone hle hmax =>
        obtain ⟨rfl, rfl⟩ := call_inj hcall
        obtain ⟨rfl, hsorted⟩ : NodeKind.multi = kind ∧
            decide ((if sorted then Keyword.sortedmulti else .multi) = .sortedmulti) = sorted := by
          subst hkind
          cases sorted <;> exact ⟨rfl, rfl⟩
        obtain ⟨q, hmulti, hspan⟩ := (reads_expectMultisig _).complete
          (a := ⟨threshold, keys, sorted⟩) ⟨_, _, rfl, hnumeral, hkeys, hone, hle, hmax, rfl⟩ hrest
          hbarred
        refine ⟨q, ?_, hspan⟩
        rw [argument, hsorted]
        exact bind_pure_eq_ok_iff.mpr ⟨_, hmulti, rfl⟩
    | wsh _ hphrase =>
        obtain ⟨rfl, rfl⟩ := call_inj hcall
        subst hkind
        obtain ⟨q, hrun, hspan⟩ := (hinner rfl).complete hphrase hrest (noneNext_nil more)
        exact ⟨q, bind_pure_eq_ok_iff.mpr ⟨_, hrun, rfl⟩, hspan⟩
    | sh _ hphrase =>
        obtain ⟨rfl, rfl⟩ := call_inj hcall
        subst hkind
        obtain ⟨q, hrun, hspan⟩ := (hinner rfl).complete hphrase hrest (noneNext_nil more)
        exact ⟨q, bind_pure_eq_ok_iff.mpr ⟨_, hrun, rfl⟩, hspan⟩
    | addr =>
        obtain ⟨rfl, rfl⟩ := call_inj hcall
        subst hkind
        obtain ⟨q, haddress, hspan⟩ := reads_expectAddress.complete rfl hrest (noneNext_nil more)
        exact ⟨q, bind_pure_eq_ok_iff.mpr ⟨_, haddress, rfl⟩, hspan⟩

/-- The keyword that a token is, if it names a function of the kind. -/
def keywordOf? (kind : NodeKind) : TokenKind → Option Keyword
  | .keyword k => if kind.accepts k then some k else none
  | _ => none

theorem keyword?_eq (kind : NodeKind) : keyword? kind = takeIf? (keywordOf? kind) := rfl

theorem keywordOf?_eq_some_iff {kind : NodeKind} {token : TokenKind} {k : Keyword} :
    keywordOf? kind token = some k ↔ token = .keyword k ∧ NodeKind.ofKeyword k = kind := by
  cases token with
  | keyword k' =>
      rw [keywordOf?]
      constructor
      · intro h
        split at h
        · next haccept =>
          cases h
          exact ⟨rfl, NodeKind.accepts_iff.mp haccept⟩
        · cases h
      · rintro ⟨⟨⟩, hkind⟩
        exact if_pos (NodeKind.accepts_iff.mpr hkind)
  | data _ | int _ | wif _ | hdKey _ | address _ | mark _ => simp [keywordOf?]

section Attempts

variable {kind : NodeKind} {inner : kind.nests = true → kind.allowedIn parent = true → ParserM Node}

theorem node?_sound {n : Node}
    (hinner : ∀ nests allowed, Reads (inner nests allowed) (ScriptFunction (some kind)) [])
    (h : node? kind parent inner p = .ok (some n) q) :
    ∃ used, ScriptFunction parent used n ∧ Spans used p q := by
  obtain ⟨keyword?, r₁, hkeyword, h⟩ := bind_eq_ok_iff.mp h
  cases keyword? with
  | none => cases (pure_eq_ok_iff.mp h).1
  | some keyword =>
      rw [keyword?_eq] at hkeyword
      obtain ⟨_, hread, hspan₁⟩ := takeIf?_eq_some hkeyword
      obtain ⟨rfl, hkind⟩ := keywordOf?_eq_some_iff.mp hread
      by_cases allowed : kind.allowedIn parent = true
      · simp only [dif_pos allowed] at h
        obtain ⟨_, r₂, hopen, h⟩ := bind_eq_ok_iff.mp h
        obtain ⟨n', r₃, hargument, h⟩ := bind_eq_ok_iff.mp h
        obtain ⟨_, hclose, heq⟩ := bind_pure_eq_ok_iff.mp h
        cases heq
        obtain ⟨used, hphrase, hspan₃⟩ :=
          (reads_argument hkind allowed fun nests => hinner nests allowed).sound hargument
        exact ⟨_, hphrase, hspan₁.cons <| (expect_eq_ok hopen).cons <|
          hspan₃.trans <| expect_eq_ok hclose⟩
      · simp only [dif_neg allowed] at h
        obtain ⟨_, _, _, h⟩ := bind_eq_ok_iff.mp h
        exact absurd h fail_ne_ok

/-- An attempt without a result has read nothing. -/
theorem node?_eq_none (h : node? kind parent inner p = .ok none q) : p = q := by
  obtain ⟨keyword?, r, hkeyword, h⟩ := bind_eq_ok_iff.mp h
  cases keyword? with
  | none =>
      obtain ⟨-, rfl⟩ := pure_eq_ok_iff.mp h
      rw [keyword?_eq] at hkeyword
      exact (takeIf?_eq_none hkeyword).1
  | some keyword =>
      by_cases allowed : kind.allowedIn parent = true
      · simp only [dif_pos allowed] at h
        obtain ⟨_, _, -, h⟩ := bind_eq_ok_iff.mp h
        obtain ⟨_, _, -, h⟩ := bind_eq_ok_iff.mp h
        obtain ⟨_, _, -, h⟩ := bind_eq_ok_iff.mp h
        cases (pure_eq_ok_iff.mp h).1
      · simp only [dif_neg allowed] at h
        obtain ⟨_, _, _, h⟩ := bind_eq_ok_iff.mp h
        exact absurd h fail_ne_ok

/-- An attempt at another kind than that of the keyword has no result. -/
theorem node?_of_ne {keyword : Keyword} {more : List TokenKind}
    (hrest : p.rest = .keyword keyword :: more) (hkind : NodeKind.ofKeyword keyword ≠ kind) :
    node? kind parent inner p = .ok none p := by
  have hnone : p.rest.head?.bind (keywordOf? kind) = none := by
    rw [hrest, List.head?_cons, Option.bind_some, Option.eq_none_iff_forall_ne_some]
    intro k hk
    obtain ⟨⟨⟩, h⟩ := keywordOf?_eq_some_iff.mp hk
    exact hkind h
  rw [node?, keyword?_eq, bind_of_ok (takeIf?_of_none hnone)]
  rfl

theorem node?_complete {keyword : Keyword} {used more : List TokenKind} {n : Node}
    (hinner : ∀ nests allowed, Reads (inner nests allowed) (ScriptFunction (some kind)) [])
    (hkind : NodeKind.ofKeyword keyword = kind) (allowed : kind.allowedIn parent = true)
    (h : ScriptFunction parent (call keyword used) n)
    (hrest : p.rest = call keyword used ++ more) :
    ∃ q, node? kind parent inner p = .ok (some n) q ∧ Spans (call keyword used) p q := by
  have hrest₀ : p.rest = .keyword keyword :: .mark .openParen ::
      (used ++ .mark .closeParen :: more) := by simpa [call] using hrest
  have hrest₁ := rest_next hrest₀
  have hrest₂ := rest_next hrest₁
  have hread : keywordOf? kind (.keyword keyword) = some keyword :=
    keywordOf?_eq_some_iff.mpr ⟨rfl, hkind⟩
  obtain ⟨r, hargument, hspan, hrest₃⟩ :=
    (reads_argument hkind allowed fun nests => hinner nests allowed).run h hrest₂
      (noneNext_cons (by decide))
  refine ⟨r.next, ?_, (Spans.next hrest₀).cons <| (Spans.next hrest₁).cons <|
    hspan.trans <| .next hrest₃⟩
  rw [node?, keyword?_eq, bind_of_ok (takeIf?_of_rest hrest₀ hread)]
  simp only [dif_pos allowed]
  rw [bind_of_ok (expect_of_rest hrest₁), bind_of_ok hargument,
    bind_of_ok (expect_of_rest hrest₃)]
  rfl

end Attempts

/-! ### Functions -/

/-- Every script function is the call of a keyword whose kind is allowed. -/
theorem exists_call_of_scriptFunction {ts : List TokenKind} {n : Node}
    (h : ScriptFunction parent ts n) :
    ∃ keyword used, ts = call keyword used ∧
      (NodeKind.ofKeyword keyword).allowedIn parent = true := by
  cases h with
  | raw allowed | wsh allowed | sh allowed | addr allowed => exact ⟨_, _, rfl, allowed⟩
  | @key _ f _ _ allowed => exact ⟨_, _, rfl, (ofKeyword_keyword f).symm ▸ allowed⟩
  | @multi _ sorted _ _ _ _ allowed => exact ⟨_, _, rfl, by cases sorted <;> exact allowed⟩

theorem mem_priority (kind : NodeKind) : kind ∈ NodeKind.priority := by
  cases kind with
  | key f => cases f <;> decide
  | raw | multi | wsh | sh | addr => decide

section Alternatives

variable {attempt : NodeKind → ParserM (Option Node)} {kinds : List NodeKind} {n : Node}

theorem firstOf_sound {phrase : List TokenKind → Node → Prop}
    (hsome : ∀ {kind p q n}, attempt kind p = .ok (some n) q →
      ∃ used, phrase used n ∧ Spans used p q)
    (hnone : ∀ {kind p q}, attempt kind p = .ok none q → p = q)
    (h : firstOf parent attempt kinds p = .ok n q) : ∃ used, phrase used n ∧ Spans used p q := by
  induction kinds generalizing p with
  | nil => exact absurd h fail_ne_ok
  | cons kind kinds ih =>
      obtain ⟨result, r, hattempt, h⟩ := bind_eq_ok_iff.mp h
      cases result with
      | some n' =>
          obtain ⟨rfl, rfl⟩ := pure_eq_ok_iff.mp h
          exact hsome (transaction_eq_some_iff.mp hattempt)
      | none =>
          obtain ⟨r', hrun, rfl⟩ := transaction_eq_none hattempt
          obtain rfl := hnone hrun
          -- what is left runs with more in its journal, which is nothing to the tokens
          obtain ⟨used, hphrase, hspan⟩ := ih h
          exact ⟨used, hphrase, hspan.source_eq, hspan.tokens_eq, hspan.cursor_eq, hspan.rest_eq⟩

theorem firstOf_complete {kind : NodeKind} {used more : List TokenKind}
    (hkind : ∀ {p}, p.rest = used ++ more → ∃ q, attempt kind p = .ok (some n) q ∧ Spans used p q)
    (hother : ∀ {other p}, p.rest = used ++ more → other ≠ kind → attempt other p = .ok none p)
    (hmem : kind ∈ kinds) (hrest : p.rest = used ++ more) :
    ∃ q, firstOf parent attempt kinds p = .ok n q ∧ Spans used p q := by
  induction kinds generalizing p with
  | nil => cases hmem
  | cons other kinds ih =>
      by_cases heq : other = kind
      · subst heq
        obtain ⟨q, hattempt, hspan⟩ := hkind hrest
        refine ⟨q, ?_, hspan⟩
        rw [firstOf, bind_of_ok (transaction_eq_some_iff.mpr hattempt)]
        rfl
      · have hmem' : kind ∈ kinds := (List.mem_cons.mp hmem).resolve_left (Ne.symm heq)
        have hattempt := transaction_of_none (hother hrest heq)
        -- the attempt is reported before the next one
        let position := p.cursor
        let text := s!"Descriptor alternative `{other.name}` does not match at token {position}"
        obtain ⟨q, hfirst, hspan⟩ :=
          ih (p := { p with journal := p.journal ++ [⟨.trace, text⟩] }) hmem' hrest
        refine ⟨q, ?_, hspan.source_eq, hspan.tokens_eq, hspan.cursor_eq, hspan.rest_eq⟩
        rw [firstOf, bind_of_ok hattempt]
        exact hfirst

end Alternatives

/-- The parser of script functions reads the script functions of the grammar. -/
theorem reads_script (parent : Option NodeKind) :
    Reads (script parent) (ScriptFunction parent) [] := by
  have hinner : ∀ (kind : NodeKind) (nests : kind.nests = true)
      (allowed : kind.allowedIn parent = true),
      Reads (script (some kind)) (ScriptFunction (some kind)) [] := by
    intro kind nests allowed
    have := room_lt nests allowed
    exact reads_script (some kind)
  constructor
  · intro p q n h
    rw [script] at h
    exact firstOf_sound (node?_sound (hinner _)) node?_eq_none h
  · intro p used more n h hrest _
    obtain ⟨keyword, used, rfl, allowed⟩ := exists_call_of_scriptFunction h
    rw [script]
    refine firstOf_complete ?_ ?_ (mem_priority (NodeKind.ofKeyword keyword)) hrest
    · exact node?_complete (hinner _) rfl allowed h
    · intro other p hrest hother
      exact node?_of_ne hrest (Ne.symm hother)
termination_by room parent

end WalletExchange.Parser
