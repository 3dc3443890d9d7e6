import WalletExchange.Proofs.Descriptor.Grammar
import WalletExchange.Proofs.Descriptor.Walk
import WalletExchange.Proofs.Key.Serialized

/-!
# Proofs — reading phrases

One specification for each function of the parser below the script functions: which phrase of the
grammar it reads, and which marks would make the phrase longer.  The specifications are put together
as the functions are, and nothing after this file opens one of these functions again.
-/

namespace WalletExchange.Parser

open Grammar

variable {α : Type} {p q : Parser}

/-! ### Numbers -/

theorem intOfToken?_eq_some_iff {kind : TokenKind} {n : UInt64} :
    intOfToken? kind = some n ↔ Numeral kind n.toNat := by
  constructor
  · intro h
    cases kind with
    | int m =>
        cases h
        exact .int n
    | data bytes =>
        simp only [intOfToken?] at h
        split at h
        · next m hread =>
          split at h
          · next hlt =>
            cases h
            rw [UInt64.toNat_ofNat_of_lt' hlt]
            exact .data hread
          · cases h
        · cases h
    | keyword _ | wif _ | hdKey _ | address _ | mark _ => cases h
  · intro h
    generalize hm : n.toNat = m at h
    cases h with
    | int n' => rw [intOfToken?, UInt64.toNat_inj.mp hm]
    | data hread =>
        subst hm
        simp only [intOfToken?, hread, if_pos n.toNat_lt]
        rw [UInt64.ofNat_toNat]

theorem indexOfToken?_eq_some_iff {kind : TokenKind} {i : ChildIndex} :
    indexOfToken? kind = some i ↔ Numeral kind i.value.toNat ∧ i.InRange := by
  constructor
  · intro h
    obtain ⟨n, hn, h⟩ := Option.bind_eq_some_iff.mp h
    split at h
    · next hlt =>
      cases hi : ChildIndex.ofUInt32? n.toUInt32 with
      | error e => rw [hi] at h; cases h
      | ok j =>
          rw [hi] at h
          cases h
          obtain ⟨hvalue, hrange⟩ := ChildIndex.ofUInt32?_eq_ok_iff.mp hi
          have hnat : i.value.toNat = n.toNat := by
            rw [hvalue, UInt64.toNat_toUInt32, Nat.mod_eq_of_lt hlt]
          exact ⟨hnat ▸ intOfToken?_eq_some_iff.mp hn, hrange⟩
    · cases h
  · rintro ⟨hnumeral, hrange⟩
    have hnat : i.value.toUInt64.toNat = i.value.toNat := by simp
    have hint : intOfToken? kind = some i.value.toUInt64 :=
      intOfToken?_eq_some_iff.mpr (hnat ▸ hnumeral)
    -- the token is read with 64 bits, of which an index has 32
    have hlt : i.value.toUInt64.toNat < UInt32.size := hnat ▸ i.value.toNat_lt
    have hcast : i.value.toUInt64.toUInt32 = i.value := by simp
    simp only [indexOfToken?, hint, Option.bind_eq_bind, Option.bind_some, if_pos hlt, hcast,
      ChildIndex.ofUInt32?_eq_ok_iff.mpr ⟨rfl, hrange⟩, Except.toOption]

theorem not_numeral_mark {m : Mark} {n : Nat} : ¬ Numeral (.mark m) n := nofun

/-- A number of 64 bits is read from a numeral. -/
theorem reads_expectInt :
    Reads expectInt (fun used n => ∃ kind, used = [kind] ∧ Numeral kind n.toNat) [] :=
  reads_expectedToken (fun _ => rfl) rfl fun _ _ => by simp only [intOfToken?_eq_some_iff]

/-! ### Steps -/

theorem indexSpec?_eq_some {fixed : Bool} {spec : IndexSpec}
    (h : indexSpec? fixed p = .ok (some spec) q) :
    ∃ kind, Position fixed kind spec ∧ Spans [kind] p q := by
  obtain ⟨starred, r, hstar, h⟩ := bind_eq_ok_iff.mp h
  cases starred with
  | true =>
      rw [if_pos rfl] at h
      cases fixed with
      | true =>
          exact absurd h fail_bind_ne_ok
      | false =>
          cases h
          exact ⟨_, .wildcard rfl, accept_eq_true hstar⟩
  | false =>
      rw [if_neg Bool.false_ne_true] at h
      obtain ⟨rfl, -⟩ := accept_eq_false hstar
      obtain ⟨index, hindex, hmap⟩ := bind_pure_eq_ok_iff.mp h
      obtain ⟨i, rfl, rfl⟩ := Option.map_eq_some_iff.mp hmap
      obtain ⟨kind, hread, hspan⟩ := takeIf?_eq_some hindex
      obtain ⟨hnumeral, hrange⟩ := indexOfToken?_eq_some_iff.mp hread
      exact ⟨kind, .index hnumeral hrange, hspan⟩

theorem indexSpec?_of_position {fixed : Bool} {kind : TokenKind} {spec : IndexSpec}
    {more : List TokenKind} (h : Position fixed kind spec) (hrest : p.rest = kind :: more) :
    indexSpec? fixed p = .ok (some spec) p.next := by
  cases h with
  | index hnumeral hrange =>
      have hstar : p.rest.head? ≠ some (.mark .star) := by
        rw [hrest]
        rintro ⟨⟩
        exact not_numeral_mark hnumeral
      have htake := takeIf?_of_rest hrest (indexOfToken?_eq_some_iff.mpr ⟨hnumeral, hrange⟩)
      rw [indexSpec?, bind_of_ok (accept_of_ne hstar)]
      exact bind_pure_eq_ok_iff.mpr ⟨_, htake, rfl⟩
  | wildcard hloose =>
      subst hloose
      rw [indexSpec?, bind_of_ok (accept_of_rest hrest)]
      rfl

theorem reads_expectSingleStep (fixed : Bool) :
    Reads (expectSingleStep fixed) (Single fixed) [.hardened] where
  sound {p q s} h := by
    obtain ⟨spec?, r, hspec, h⟩ := bind_eq_ok_iff.mp h
    cases spec? with
    | none => exact absurd h fail_ne_ok
    | some spec =>
        obtain ⟨kind, hposition, hfirst⟩ := indexSpec?_eq_some hspec
        obtain ⟨hardened, hmark, rfl⟩ := bind_pure_eq_ok_iff.mp h
        cases hardened with
        | true => exact ⟨_, .hardened hposition, hfirst.trans (accept_eq_true hmark)⟩
        | false =>
            obtain ⟨rfl, -⟩ := accept_eq_false hmark
            exact ⟨_, .normal hposition, hfirst⟩
  complete {p used more s} hphrase hrest hbarred := by
    cases hphrase with
    | @normal kind spec hposition =>
        have hnext : p.next.rest.head? ≠ some (.mark .hardened) := by
          rw [rest_next hrest]
          exact hbarred _ (List.mem_singleton.mpr rfl)
        refine ⟨p.next, ?_, .next hrest⟩
        rw [expectSingleStep, bind_of_ok (indexSpec?_of_position hposition hrest)]
        exact bind_pure_eq_ok_iff.mpr ⟨_, accept_of_ne hnext, rfl⟩
    | @hardened kind spec hposition =>
        have hnext := rest_next hrest
        refine ⟨p.next.next, ?_, (Spans.next hrest).cons (.next hnext)⟩
        rw [expectSingleStep, bind_of_ok (indexSpec?_of_position hposition hrest)]
        exact bind_pure_eq_ok_iff.mpr ⟨_, accept_of_rest hnext, rfl⟩

theorem isWildcard_of_single {ts : List TokenKind} {s : SingleStep} (h : Single true ts s) :
    s.isWildcard = false := by
  cases h with
  | normal hposition | hardened hposition =>
      cases hposition with
      | index => rfl
      | wildcard hloose => cases hloose

/-- The tokens of a pair after the bracket that opens it. -/
def PairRest (used : List TokenKind) (p : PairStep) : Prop :=
  ∃ ts us, Single true ts p.external ∧ Single true us p.internal ∧
    used = ts ++ .mark .semicolon :: (us ++ [.mark .closeAngle])

theorem readsAfter_pair? : ReadsAfter .openAngle pair? PairRest [] := readsAfter_of_accept {
  sound := by
    intro p q result h
    obtain ⟨external, r₁, hexternal, h⟩ := bind_eq_ok_iff.mp h
    obtain ⟨_, r₂, hsemicolon, h⟩ := bind_eq_ok_iff.mp h
    obtain ⟨internal, r₃, hinternal, h⟩ := bind_eq_ok_iff.mp h
    obtain ⟨_, r₄, hclose, h⟩ := bind_eq_ok_iff.mp h
    obtain ⟨pair, r₅, hlift, h⟩ := bind_eq_ok_iff.mp h
    obtain ⟨hpair, rfl⟩ := liftPath_eq_ok_iff.mp hlift
    obtain ⟨rfl, rfl⟩ := pure_eq_ok_iff.mp h
    obtain ⟨-, -, rfl⟩ := PairStep.ofSteps?_eq_ok_iff.mp hpair
    obtain ⟨ts, hts, hspan₁⟩ := (reads_expectSingleStep true).sound hexternal
    obtain ⟨us, hus, hspan₃⟩ := (reads_expectSingleStep true).sound hinternal
    exact ⟨_, ⟨_, rfl, ts, us, hts, hus, rfl⟩, hspan₁.trans <|
      (expect_eq_ok hsemicolon).cons <| hspan₃.trans <| expect_eq_ok hclose⟩
  complete := by
    rintro p _ more _ ⟨pair, rfl, ts, us, hts, hus, rfl⟩ hrest -
    simp only [List.append_assoc, List.cons_append, List.nil_append] at hrest
    obtain ⟨r₁, hexternal, hspan₁, hrest₁⟩ :=
      (reads_expectSingleStep true).run hts hrest (noneNext_cons (by decide))
    have hrest₂ := rest_next hrest₁
    obtain ⟨r₃, hinternal, hspan₃, hrest₃⟩ :=
      (reads_expectSingleStep true).run hus hrest₂ (noneNext_cons (by decide))
    have hpair : PairStep.ofSteps? pair.external pair.internal = .ok pair :=
      PairStep.ofSteps?_eq_ok_iff.mpr ⟨isWildcard_of_single hts, isWildcard_of_single hus, rfl⟩
    refine ⟨r₃.next, ?_, hspan₁.trans <| (Spans.next hrest₁).cons <| hspan₃.trans <| .next hrest₃⟩
    rw [bind_of_ok hexternal, bind_of_ok (expect_of_rest hrest₁), bind_of_ok hinternal,
      bind_of_ok (expect_of_rest hrest₃), hpair]
    rfl }

theorem readsAfter_step? (fixed : Bool) :
    ReadsAfter .slash (step? fixed) (AnyStep fixed) [.hardened] := readsAfter_of_accept {
  sound := by
    intro p q result h
    obtain ⟨pair, r, hpair, h⟩ := bind_eq_ok_iff.mp h
    cases pair with
    | some pair =>
        obtain ⟨_, ⟨ts, us, hts, hus, rfl⟩, hspan⟩ := readsAfter_pair?.sound hpair
        cases fixed with
        | true =>
            exact absurd h fail_bind_ne_ok
        | false =>
            obtain ⟨rfl, rfl⟩ := pure_eq_ok_iff.mp h
            exact ⟨_, ⟨_, rfl, .pair rfl hts hus⟩, hspan⟩
    | none =>
        obtain ⟨rfl, -⟩ := readsAfter_pair?.absent hpair
        obtain ⟨s, hsingle, rfl⟩ := bind_pure_eq_ok_iff.mp h
        obtain ⟨ts, hts, hspan⟩ := (reads_expectSingleStep fixed).sound hsingle
        exact ⟨ts, ⟨_, rfl, .single hts⟩, hspan⟩
  complete := by
    rintro p used more _ ⟨s, rfl, hphrase⟩ hrest hbarred
    cases hphrase with
    | @single ts s hts =>
        -- no single step begins with the bracket of a pair
        have hpair : p.rest.head? ≠ some (.mark .openAngle) := by
          rw [hrest]
          cases hts with
          | normal hposition | hardened hposition =>
              cases hposition with
              | index hnumeral => rintro ⟨⟩; exact not_numeral_mark hnumeral
              | wildcard => rintro ⟨⟩
        obtain ⟨q, hsingle, hspan⟩ := (reads_expectSingleStep fixed).complete hts hrest hbarred
        refine ⟨q, ?_, hspan⟩
        rw [bind_of_ok (readsAfter_pair?.stops hpair)]
        exact bind_pure_eq_ok_iff.mpr ⟨_, hsingle, rfl⟩
    | @pair ts us s t hloose hts hus =>
        subst hloose
        obtain ⟨q, hpair, hspan⟩ := readsAfter_pair?.complete (p := p) (a := ⟨s, t⟩)
          ⟨ts, us, hts, hus, rfl⟩ hrest (noneNext_nil more)
        refine ⟨q, ?_, hspan⟩
        rw [bind_of_ok hpair]
        rfl }

/-! ### Repetitions -/

theorem upTo_sound {m : Mark} {item : ParserM (Option α)} {phrase : List TokenKind → α → Prop}
    {barred : List Mark} (hitem : ReadsAfter m item phrase barred) {n : Nat} {as : List α}
    (h : upTo item n p = .ok as q) : ∃ used, Each m phrase used as ∧ Spans used p q := by
  induction n generalizing p as with
  | zero =>
      obtain ⟨rfl, rfl⟩ := pure_eq_ok_iff.mp h
      exact ⟨[], .nil, .refl p⟩
  | succ n ih =>
      obtain ⟨result, r, hresult, h⟩ := bind_eq_ok_iff.mp h
      cases result with
      | none =>
          obtain ⟨rfl, rfl⟩ := pure_eq_ok_iff.mp h
          obtain ⟨rfl, -⟩ := hitem.absent hresult
          exact ⟨[], .nil, .refl p⟩
      | some a =>
          obtain ⟨as', hmore, rfl⟩ := bind_pure_eq_ok_iff.mp h
          obtain ⟨ts, hts, hspan⟩ := hitem.sound hresult
          obtain ⟨us, hus, hspan'⟩ := ih hmore
          exact ⟨_, .cons hts hus, hspan.trans hspan'⟩

/-- As many attempts suffice as there are tokens, since each phrase begins with a mark. -/
theorem upTo_complete {m : Mark} {item : ParserM (Option α)} {phrase : List TokenKind → α → Prop}
    {barred : List Mark} (hitem : ReadsAfter m item phrase barred) (hm : m ∉ barred) {n : Nat}
    {used more : List TokenKind} {as : List α} (h : Each m phrase used as)
    (hrest : p.rest = used ++ more) (hbarred : NoneNext (m :: barred) more)
    (hn : used.length ≤ n) : ∃ q, upTo item n p = .ok as q ∧ Spans used p q := by
  induction h generalizing p n with
  | nil =>
      refine ⟨p, ?_, .refl p⟩
      cases n with
      | zero => rfl
      | succ n =>
          have hhead : p.rest.head? ≠ some (.mark m) := by
            rw [hrest]
            exact hbarred m List.mem_cons_self
          rw [upTo, bind_of_ok (hitem.stops hhead)]
          rfl
  | @cons ts us a as hhead htail ih =>
      cases n with
      | zero => cases hn
      | succ n =>
          simp only [List.cons_append, List.append_assoc] at hrest
          -- the next item begins with its own mark, so it cannot make this one longer
          have hafter : NoneNext barred (us ++ more) := by
            cases htail with
            | nil => exact hbarred.mono (List.subset_cons_self m barred)
            | cons => exact noneNext_cons hm
          obtain ⟨r, hrun, hspan⟩ := hitem.complete hhead hrest hafter
          have hlength : us.length ≤ n := by
            simp only [List.length_cons, List.length_append] at hn
            omega
          obtain ⟨q, hmore, hspan'⟩ := ih (hspan.rest_of_append (by simp [hrest])) hlength
          refine ⟨q, ?_, hspan.trans hspan'⟩
          rw [upTo, bind_of_ok hrun]
          exact bind_pure_eq_ok_iff.mpr ⟨_, hmore, rfl⟩

theorem reads_many {m : Mark} {item : ParserM (Option α)} {phrase : List TokenKind → α → Prop}
    {barred : List Mark} (hitem : ReadsAfter m item phrase barred) (hm : m ∉ barred) :
    Reads (many item) (Each m phrase) (m :: barred) where
  sound h := upTo_sound hitem h
  complete {p used more as} h hrest hbarred := by
    refine upTo_complete hitem hm h hrest hbarred ?_
    -- at least as many attempts are made as there are tokens left
    have hlength : p.rest.length = p.tokens.length - p.cursor := by simp [rest]
    rw [← hlength, hrest, List.length_append]
    exact Nat.le_add_right _ _

/-! ### Paths -/

theorem isFixed_of_steps {ts : List TokenKind} {steps : List Step} (h : Steps true ts steps) :
    ∀ s ∈ steps, s.isFixed = true := by
  induction h with
  | nil => simp
  | cons hhead _ ih =>
      rw [List.forall_mem_cons]
      refine ⟨?_, ih⟩
      cases hhead with
      | single hsingle =>
          have hwildcard := isWildcard_of_single hsingle
          simp [Step.isFixed, Step.isWildcard, Step.isPair, hwildcard]
      | pair hloose => cases hloose

theorem reads_steps_fixed : Reads (steps true) (Steps true) [.slash, .hardened] where
  sound h := by
    obtain ⟨ss, r, hmany, h⟩ := bind_eq_ok_iff.mp h
    obtain ⟨_, hcheck, rfl⟩ := bind_pure_eq_ok_iff.mp h
    obtain ⟨-, rfl⟩ := liftPath_eq_ok_iff.mp hcheck
    exact (reads_many (readsAfter_step? true) (by decide)).sound hmany
  complete {p used more ss} h hrest hbarred := by
    obtain ⟨q, hmany, hspan⟩ :=
      (reads_many (readsAfter_step? true) (by decide)).complete h hrest hbarred
    have hcheck : Path.checkSteps .fixedOnly ss = .ok () :=
      if_pos (List.all_eq_true.mpr (isFixed_of_steps h))
    refine ⟨q, ?_, hspan⟩
    rw [steps, bind_of_ok hmany, if_pos rfl, hcheck]
    rfl

theorem reads_steps_loose :
    Reads (steps false) (fun used ss => Steps false used ss ∧ Path.ChildSteps ss)
      [.slash, .hardened] where
  sound h := by
    obtain ⟨ss, r, hmany, h⟩ := bind_eq_ok_iff.mp h
    obtain ⟨_, hcheck, rfl⟩ := bind_pure_eq_ok_iff.mp h
    obtain ⟨hsteps, rfl⟩ := liftPath_eq_ok_iff.mp hcheck
    obtain ⟨used, hphrase, hspan⟩ :=
      (reads_many (readsAfter_step? false) (by decide)).sound hmany
    exact ⟨used, ⟨hphrase, Path.checkSteps_lastStepWildcard_iff.mp hsteps⟩, hspan⟩
  complete {p used more ss} h hrest hbarred := by
    obtain ⟨q, hmany, hspan⟩ :=
      (reads_many (readsAfter_step? false) (by decide)).complete h.1 hrest hbarred
    refine ⟨q, ?_, hspan⟩
    rw [steps, bind_of_ok hmany, if_neg Bool.false_ne_true,
      Path.checkSteps_lastStepWildcard_iff.mpr h.2]
    rfl

theorem reads_children? :
    Reads children? (fun used path => ∃ ss, Steps false used ss ∧ Path.ChildSteps ss ∧
      path = children ss) [.slash, .hardened] where
  sound h := by
    obtain ⟨ss, hsteps, rfl⟩ := bind_pure_eq_ok_iff.mp h
    obtain ⟨used, ⟨hphrase, hwell⟩, hspan⟩ := reads_steps_loose.sound hsteps
    exact ⟨used, ⟨ss, hphrase, hwell, by simp only [children, List.isEmpty_iff]⟩, hspan⟩
  complete {p used more _} h hrest hbarred := by
    obtain ⟨ss, hphrase, hwell, rfl⟩ := h
    obtain ⟨q, hsteps, hspan⟩ := reads_steps_loose.complete ⟨hphrase, hwell⟩ hrest hbarred
    refine ⟨q, ?_, hspan⟩
    rw [children?, bind_of_ok hsteps]
    simp only [children, List.isEmpty_iff]
    rfl

theorem fingerprintOfToken?_eq_some_iff {kind : TokenKind} {f : Fingerprint} :
    fingerprintOfToken? kind = some f ↔
      ∃ data : Bytes, data.length = 4 ∧ kind = .data data ∧ f = UInt32.ofNat data.toNat := by
  constructor
  · intro h
    cases kind with
    | data bytes =>
        simp only [fingerprintOfToken?] at h
        split at h
        · next hlength => cases h; exact ⟨bytes, hlength, rfl, rfl⟩
        · cases h
    | keyword _ | int _ | wif _ | hdKey _ | address _ | mark _ => cases h
  · rintro ⟨data, hlength, rfl, rfl⟩
    simp only [fingerprintOfToken?, if_pos hlength]

theorem reads_expectFingerprint :
    Reads expectFingerprint (fun used f => ∃ data : Bytes, data.length = 4 ∧
      used = [.data data] ∧ f = UInt32.ofNat data.toNat) [] := by
  refine reads_expectedToken (fun _ => rfl) rfl fun used f => ?_
  simp only [fingerprintOfToken?_eq_some_iff]
  constructor
  · rintro ⟨data, hlength, rfl, rfl⟩
    exact ⟨_, rfl, data, hlength, rfl, rfl⟩
  · rintro ⟨_, rfl, data, hlength, rfl, rfl⟩
    exact ⟨data, hlength, rfl, rfl⟩

/-! ### Keys -/

/-- The tokens of an origin after the bracket that opens it. -/
def OriginRest (used : List TokenKind) (path : Path) : Prop :=
  ∃ (data : Bytes) (ts : List TokenKind) (steps : List Step),
    data.length = 4 ∧ Steps true ts steps ∧
    used = .data data :: (ts ++ [.mark .closeBracket]) ∧
    path = .fromMaster (UInt32.ofNat data.toNat) steps

theorem readsAfter_origin? : ReadsAfter .openBracket origin? OriginRest [] := readsAfter_of_accept {
  sound := by
    intro p q result h
    obtain ⟨f, r₁, hfingerprint, h⟩ := bind_eq_ok_iff.mp h
    obtain ⟨ss, r₂, hsteps, h⟩ := bind_eq_ok_iff.mp h
    obtain ⟨_, hclose, rfl⟩ := bind_pure_eq_ok_iff.mp h
    obtain ⟨_, ⟨data, hlength, rfl, rfl⟩, hspan₁⟩ := reads_expectFingerprint.sound hfingerprint
    obtain ⟨ts, hts, hspan₂⟩ := reads_steps_fixed.sound hsteps
    exact ⟨_, ⟨_, rfl, data, ts, ss, hlength, hts, rfl, rfl⟩,
      hspan₁.cons <| hspan₂.trans <| expect_eq_ok hclose⟩
  complete := by
    rintro p _ more _ ⟨path, rfl, data, ts, ss, hlength, hts, rfl, rfl⟩ hrest -
    simp only [List.cons_append, List.append_assoc, List.nil_append] at hrest
    obtain ⟨r₁, hfingerprint, hspan₁, hrest₁⟩ :=
      reads_expectFingerprint.run ⟨data, hlength, rfl, rfl⟩ hrest (noneNext_nil _)
    obtain ⟨r₂, hsteps, hspan₂, hrest₂⟩ :=
      reads_steps_fixed.run hts hrest₁ (noneNext_cons (by decide))
    refine ⟨r₂.next, ?_, hspan₁.cons <| hspan₂.trans <| .next hrest₂⟩
    rw [bind_of_ok hfingerprint, bind_of_ok hsteps, bind_of_ok (expect_of_rest hrest₂)]
    rfl }

/-- The data that is read as a public key is its serialized form. -/
theorem plainKey?_eq_some_iff {uncompressed : Bool} {data : Bytes} {k : PublicKey} :
    plainKey? uncompressed data = some k ↔
      data = k.toBytes ∧ (k.isCompressed = true ∨ uncompressed = true) := by
  have hbytes : (PublicKey.ofBytes? data).toOption = some k ↔ data = k.toBytes := by
    rw [← PublicKey.ofBytes?_eq_ok_iff]
    cases PublicKey.ofBytes? data <;> simp [Except.toOption]
  have hlength : k.toBytes.length = if k.isCompressed then 33 else 65 := k.length_toBytes
  rw [plainKey?]
  constructor
  · intro h
    split at h
    · next hform =>
      obtain rfl := hbytes.mp h
      refine ⟨rfl, ?_⟩
      cases hc : k.isCompressed with
      | true => exact .inl rfl
      | false => rw [hlength, hc] at hform; simpa using hform
    · cases h
  · rintro ⟨rfl, hform⟩
    rw [if_pos, hbytes]
    rw [hlength]
    cases hc : k.isCompressed with
    | true => simp
    | false => simpa [hc] using hform

theorem material?_eq_some {uncompressed : Bool} {kind : TokenKind} {material : KeyMaterial}
    (h : material? uncompressed kind p = .ok (some material) q) :
    ∃ used, Material uncompressed (kind :: used) material ∧ Spans used p q := by
  cases kind with
  | data data =>
      obtain ⟨hmap, rfl⟩ := pure_eq_ok_iff.mp h
      obtain ⟨k, hplain, rfl⟩ := Option.map_eq_some_iff.mp hmap
      obtain ⟨rfl, hform⟩ := plainKey?_eq_some_iff.mp hplain
      exact ⟨[], .plain hform, .refl p⟩
  | wif key =>
      obtain ⟨heq, rfl⟩ := pure_eq_ok_iff.mp h
      cases heq
      exact ⟨[], .wif, .refl p⟩
  | hdKey key =>
      obtain ⟨path, hchildren, heq⟩ := bind_pure_eq_ok_iff.mp h
      cases heq
      obtain ⟨used, ⟨ss, hsteps, hwell, rfl⟩, hspan⟩ := reads_children?.sound hchildren
      exact ⟨used, .hd hsteps hwell, hspan⟩
  | keyword _ | int _ | address _ | mark _ => cases (pure_eq_ok_iff.mp h).1

theorem material?_of_material {uncompressed : Bool} {kind : TokenKind} {used more : List TokenKind}
    {material : KeyMaterial} (h : Material uncompressed (kind :: used) material)
    (hrest : p.rest = used ++ more) (hbarred : NoneNext [.slash, .hardened] more) :
    ∃ q, material? uncompressed kind p = .ok (some material) q ∧ Spans used p q := by
  cases h with
  | plain hform =>
      refine ⟨p, ?_, .refl p⟩
      rw [material?, plainKey?_eq_some_iff.mpr ⟨rfl, hform⟩]
      rfl
  | wif => exact ⟨p, rfl, .refl p⟩
  | hd hsteps hwell =>
      obtain ⟨q, hchildren, hspan⟩ := reads_children?.complete ⟨_, hsteps, hwell, rfl⟩ hrest hbarred
      refine ⟨q, ?_, hspan⟩
      rw [material?, bind_of_ok hchildren]
      rfl

/-- Every key begins with a token that holds it. -/
theorem exists_cons_of_material {uncompressed : Bool} {ts : List TokenKind}
    {material : KeyMaterial} (h : Material uncompressed ts material) :
    ∃ kind used, ts = kind :: used ∧ ∀ m, kind ≠ .mark m := by
  cases h with
  | plain => exact ⟨_, _, rfl, nofun⟩
  | wif => exact ⟨_, _, rfl, nofun⟩
  | hd => exact ⟨_, _, rfl, nofun⟩

/-- An origin is read where there is one. -/
theorem origin?_eq_ok {origin : Option Path} (h : origin? p = .ok origin q) :
    ∃ used, Origin used origin ∧ Spans used p q := by
  cases origin with
  | none =>
      obtain ⟨rfl, -⟩ := readsAfter_origin?.absent h
      exact ⟨[], .absent, .refl p⟩
  | some path =>
      obtain ⟨_, ⟨data, ts, ss, hlength, hts, rfl, rfl⟩, hspan⟩ := readsAfter_origin?.sound h
      exact ⟨_, .present hlength hts, hspan⟩

theorem origin?_of_origin {used more : List TokenKind} {origin : Option Path}
    (h : Origin used origin) (hrest : p.rest = used ++ more)
    (hmore : more.head? ≠ some (.mark .openBracket)) :
    ∃ q, origin? p = .ok origin q ∧ Spans used p q := by
  cases h with
  | absent => exact ⟨p, readsAfter_origin?.stops (hrest ▸ hmore), .refl p⟩
  | present hlength hts =>
      exact readsAfter_origin?.complete ⟨_, _, _, hlength, hts, rfl, rfl⟩ hrest (noneNext_nil more)

theorem reads_expectKey (uncompressed : Bool) :
    Reads (expectKey uncompressed) (Key uncompressed) [.slash, .hardened] := by
  refine reads_expected (fun _ => rfl) rfl ?_ ?_
  · intro p q k h
    obtain ⟨origin, r₁, horigin, h⟩ := bind_eq_ok_iff.mp (transaction_eq_some_iff.mp h)
    obtain ⟨kind?, r₂, hkind, h⟩ := bind_eq_ok_iff.mp h
    cases kind? with
    | none => cases (pure_eq_ok_iff.mp h).1
    | some kind =>
        obtain ⟨material?, hmaterial, hmap⟩ := bind_pure_eq_ok_iff.mp h
        obtain ⟨material, rfl, rfl⟩ := Option.map_eq_some_iff.mp hmap
        obtain ⟨ts, hts, hspan₁⟩ := origin?_eq_ok horigin
        obtain ⟨kind, hsome, hspan₂⟩ := takeIf?_eq_some hkind
        obtain ⟨us, hus, hspan₃⟩ := material?_eq_some hmaterial
        cases hsome
        exact ⟨_, .mk hts hus, hspan₁.trans (hspan₂.cons hspan₃)⟩
  · intro p used more k h hrest hbarred
    cases h with
    | @mk ts us origin material hts hus =>
        obtain ⟨kind, us, rfl, hkind⟩ := exists_cons_of_material hus
        rw [List.append_assoc] at hrest
        have hhead : (kind :: us ++ more).head? ≠ some (.mark .openBracket) :=
          fun heq => hkind _ (Option.some.inj heq)
        obtain ⟨r₁, horigin, hspan₁⟩ := origin?_of_origin hts hrest hhead
        have hrest₁ : r₁.rest = kind :: (us ++ more) := hspan₁.rest_of_append hrest
        obtain ⟨r₂, hmaterial, hspan₂⟩ := material?_of_material hus (rest_next hrest₁) hbarred
        refine ⟨r₂, ?_, hspan₁.trans ((Spans.next hrest₁).cons hspan₂)⟩
        refine transaction_eq_some_iff.mpr ?_
        rw [bind_of_ok horigin, bind_of_ok (takeIf?_of_rest hrest₁ rfl)]
        exact bind_pure_eq_ok_iff.mpr ⟨_, hmaterial, rfl⟩

theorem readsAfter_listedKey? :
    ReadsAfter .comma listedKey? (Key true) [.slash, .hardened] := readsAfter_of_accept {
  sound := by
    intro p q result h
    obtain ⟨k, hkey, rfl⟩ := bind_pure_eq_ok_iff.mp h
    obtain ⟨used, hphrase, hspan⟩ := (reads_expectKey true).sound hkey
    exact ⟨used, ⟨k, rfl, hphrase⟩, hspan⟩
  complete := by
    rintro p used more _ ⟨k, rfl, hphrase⟩ hrest hbarred
    obtain ⟨q, hkey, hspan⟩ := (reads_expectKey true).complete hphrase hrest hbarred
    exact ⟨q, bind_eq_ok_iff.mpr ⟨k, q, hkey, rfl⟩, hspan⟩ }

theorem reads_expectKeys :
    Reads expectKeys (fun used keys => Keys used keys ∧ keys ≠ []) [.comma, .slash, .hardened] where
  sound {p q keys} h := by
    obtain ⟨keys', r, hmany, h⟩ := bind_eq_ok_iff.mp h
    obtain ⟨used, hphrase, hspan⟩ := (reads_many readsAfter_listedKey? (by decide)).sound hmany
    cases keys' with
    | nil =>
        exact absurd h fail_bind_ne_ok
    | cons k rest =>
        obtain ⟨rfl, rfl⟩ := pure_eq_ok_iff.mp h
        exact ⟨used, ⟨hphrase, List.cons_ne_nil k rest⟩, hspan⟩
  complete {p used more keys} h hrest hbarred := by
    obtain ⟨hphrase, hne⟩ := h
    obtain ⟨q, hmany, hspan⟩ :=
      (reads_many readsAfter_listedKey? (by decide)).complete hphrase hrest hbarred
    refine ⟨q, ?_, hspan⟩
    rw [expectKeys, bind_of_ok hmany]
    cases keys with
    | nil => exact absurd rfl hne
    | cons k rest => rfl

end WalletExchange.Parser
