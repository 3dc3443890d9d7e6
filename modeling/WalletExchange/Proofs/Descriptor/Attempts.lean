import WalletExchange.Proofs.Descriptor.Functions

/-!
# Proofs — what an attempt leaves and what it looks at

An attempt that has no result puts the cursor back to where it was, however far it came.  One that
has a result has stepped over some tokens, and it has the same result wherever these tokens stand.
A script function ends with a parenthesis of its own, so nothing behind it is looked at.  Behind a
key the next token is, since it could be one more step or a mark of hardening.

The grammar does not settle the second part for keys: it says which keys are read where no such mark
follows, but a key is also read in front of a mark that cannot belong to it, as in `K'`.  That a
walk looks at one more token at most, whatever that token is, is a property of each of its parts,
`Local`.

Main statement:

* `attempts_delimited` — script functions and keys are read as a whole or not at all, and from
  their own tokens.
-/

namespace WalletExchange.Parser

open Grammar

variable {α β : Type} {p p' q : Parser} {a : α}

/-- The kind of the token at a place. -/
def kindAt? (p : Parser) (i : Nat) : Option TokenKind := p.tokens[i]?.map Token.kind

theorem head?_rest : p.rest.head? = p.kindAt? p.cursor := by simp [rest, kindAt?]

theorem kindAt?_of_tokens_eq (h : q.tokens = p.tokens) (i : Nat) : q.kindAt? i = p.kindAt? i := by
  rw [kindAt?, h, kindAt?]

theorem kindAt?_eq_none_iff {i : Nat} : p.kindAt? i = none ↔ p.tokens.length ≤ i := by
  rw [kindAt?, Option.map_eq_none_iff, List.getElem?_eq_none_iff]

/-- Two walks are at the same place, and from there up to another place they have tokens of the same
kinds. -/
structure Agrees (stop : Nat) (p p' : Parser) : Prop where
  cursor_eq : p'.cursor = p.cursor
  kindAt?_eq : ∀ i, p.cursor ≤ i → i < stop → p'.kindAt? i = p.kindAt? i

namespace Agrees

variable {stop stop' : Nat}

theorem mono (h : Agrees stop p p') (hle : stop' ≤ stop) : Agrees stop' p p' :=
  ⟨h.cursor_eq, fun i hi hlt => h.kindAt?_eq i hi (Nat.lt_of_lt_of_le hlt hle)⟩

theorem head?_rest (h : Agrees stop p p') (hlt : p.cursor < stop) :
    p'.rest.head? = p.rest.head? := by
  rw [Parser.head?_rest, Parser.head?_rest, h.cursor_eq]
  exact h.kindAt?_eq _ (Nat.le_refl _) hlt

/-- Walks that have gone on to the same place still agree. -/
theorem advance {r r' : Parser} (h : Agrees stop p p') (hr : p.cursor ≤ r.cursor)
    (htokens : r.tokens = p.tokens) (htokens' : r'.tokens = p'.tokens)
    (hcursor : r'.cursor = r.cursor) : Agrees stop r r' where
  cursor_eq := hcursor
  kindAt?_eq i hi hlt := by
    rw [kindAt?_of_tokens_eq htokens, kindAt?_of_tokens_eq htokens']
    exact h.kindAt?_eq i (Nat.le_trans hr hi) hlt

end Agrees

/-! ### What a walk looks at -/

/-- A walk that succeeds does not go back, and its result and its end depend only on the tokens that
it steps over and on the next one. -/
structure Local (m : ParserM α) : Prop where
  forward : ∀ {p q a}, m p = .ok a q → p.cursor ≤ q.cursor ∧ q.tokens = p.tokens
  determined : ∀ {p p' q a}, m p = .ok a q → Agrees (q.cursor + 1) p p' →
    ∃ q', m p' = .ok a q' ∧ q'.cursor = q.cursor

theorem local_pure (a : α) : Local (pure a) where
  forward h := by
    obtain ⟨-, rfl⟩ := pure_eq_ok_iff.mp h
    exact ⟨Nat.le_refl _, rfl⟩
  determined h hagree := by
    obtain ⟨rfl, rfl⟩ := pure_eq_ok_iff.mp h
    exact ⟨_, rfl, hagree.cursor_eq⟩

theorem local_fail (fault : ParseFault) : Local (fail fault : ParserM α) where
  forward h := absurd h fail_ne_ok
  determined h := absurd h fail_ne_ok

theorem local_bind {m : ParserM α} {f : α → ParserM β} (hm : Local m) (hf : ∀ a, Local (f a)) :
    Local (m >>= f) where
  forward h := by
    obtain ⟨a, r, hfirst, hsecond⟩ := bind_eq_ok_iff.mp h
    obtain ⟨hle, htokens⟩ := hm.forward hfirst
    obtain ⟨hle', htokens'⟩ := (hf a).forward hsecond
    exact ⟨Nat.le_trans hle hle', htokens'.trans htokens⟩
  determined {p p' q b} h hagree := by
    obtain ⟨a, r, hfirst, hsecond⟩ := bind_eq_ok_iff.mp h
    obtain ⟨hle, htokens⟩ := hm.forward hfirst
    obtain ⟨hle', -⟩ := (hf a).forward hsecond
    obtain ⟨r', hfirst', hcursor⟩ :=
      hm.determined hfirst (hagree.mono (Nat.add_le_add_right hle' 1))
    -- the second part goes on where the first one ends, in both walks
    have hrest := hagree.advance hle htokens (hm.forward hfirst').2 hcursor
    obtain ⟨q', hsecond', hend⟩ := (hf a).determined hsecond hrest
    exact ⟨q', bind_eq_ok_iff.mpr ⟨a, r', hfirst', hsecond'⟩, hend⟩

theorem local_takeIf? (read : TokenKind → Option α) : Local (takeIf? read) where
  forward {p q _} h := by
    rw [takeIf?_eq] at h
    obtain ⟨-, rfl⟩ := EStateM.Result.ok.inj h
    split
    · exact ⟨Nat.le_succ _, rfl⟩
    · exact ⟨Nat.le_refl _, rfl⟩
  determined {p p' q _} h hagree := by
    rw [takeIf?_eq] at h
    obtain ⟨rfl, rfl⟩ := EStateM.Result.ok.inj h
    have hhead : p'.rest.head? = p.rest.head? := by
      refine hagree.head?_rest (Nat.lt_succ_of_le ?_)
      split
      · exact Nat.le_succ _
      · exact Nat.le_refl _
    refine ⟨_, by rw [takeIf?_eq, hhead], ?_⟩
    split
    · exact congrArg (· + 1) hagree.cursor_eq
    · exact hagree.cursor_eq

theorem local_accept (m : Mark) : Local (accept m) :=
  local_bind (local_takeIf? _) fun _ => local_pure _

theorem local_expect (m : Mark) : Local (expect m) := by
  refine local_bind (local_accept m) fun accepted => ?_
  cases accepted with
  | true => exact local_pure ()
  | false => exact local_fail _

theorem local_liftPath (result : Except PathError α) : Local (liftPath result) := by
  cases result with
  | ok a => exact local_pure a
  | error cause => exact local_fail _

/-! ### Repetitions -/

theorem bind_congr_run {m m' : ParserM α} {f f' : α → ParserM β} (hm : m p = m' p)
    (hf : ∀ a r, m p = .ok a r → f a r = f' a r) : (m >>= f) p = (m' >>= f') p := by
  change EStateM.bind m f p = EStateM.bind m' f' p
  rw [EStateM.bind, EStateM.bind, ← hm]
  cases h : m p with
  | ok a r => exact hf a r h
  | error e r => rfl

section Repetitions

variable {m : Mark} {item : ParserM (Option α)} {phrase : List TokenKind → α → Prop}
  {barred : List Mark}

theorem local_upTo (hitem : Local item) (n : Nat) : Local (upTo item n) := by
  induction n with
  | zero => exact local_pure []
  | succ n ih =>
      refine local_bind hitem fun result => ?_
      cases result with
      | none => exact local_pure []
      | some a => exact local_bind ih fun _ => local_pure _

theorem upTo_succ (n : Nat) : upTo item (n + 1) = item >>= fun
    | some a => upTo item n >>= fun as => pure (a :: as)
    | none => pure [] := rfl

/-- No more attempts are needed than there are tokens left. -/
theorem upTo_succ_eq (hitem : ReadsAfter m item phrase barred) {n : Nat}
    (hn : p.tokens.length ≤ p.cursor + n) : upTo item (n + 1) p = upTo item n p := by
  induction n generalizing p with
  | zero =>
      have hend : p.rest.head? ≠ some (.mark m) := by
        have hnone : p.kindAt? p.cursor = none := kindAt?_eq_none_iff.mpr hn
        rw [head?_rest, hnone]
        exact (Option.some_ne_none _).symm
      rw [upTo_succ, bind_of_ok (hitem.stops hend)]
      rfl
  | succ n ih =>
      rw [upTo_succ, upTo_succ]
      refine bind_congr_run rfl fun result r hrun => ?_
      cases result with
      | none => rfl
      | some a =>
          obtain ⟨used, -, hspan⟩ := hitem.sound hrun
          refine bind_congr_run (ih ?_) fun _ _ _ => rfl
          rw [hspan.tokens_eq, hspan.cursor_eq, List.length_cons]
          omega

theorem upTo_eq_many (hitem : ReadsAfter m item phrase barred) {n : Nat}
    (hn : p.tokens.length - p.cursor ≤ n) : upTo item n p = many item p := by
  induction hn with
  | refl => rfl
  | @step n hle ih =>
      have hbound : p.tokens.length ≤ p.cursor + n := Nat.sub_le_iff_le_add'.mp hle
      rw [upTo_succ_eq hitem hbound, ih]

theorem local_many (hitem : ReadsAfter m item phrase barred) (hlocal : Local item) :
    Local (many item) where
  forward {p q as} h := (local_upTo hlocal (p.tokens.length - p.cursor)).forward h
  determined {p p' q as} h hagree := by
    -- as many attempts as there are tokens left in either of the walks
    let n := max (p.tokens.length - p.cursor) (p'.tokens.length - p'.cursor)
    rw [← upTo_eq_many hitem (Nat.le_max_left _ _ : _ ≤ n)] at h
    rw [← upTo_eq_many hitem (Nat.le_max_right _ _ : _ ≤ n)]
    exact (local_upTo hlocal n).determined h hagree

end Repetitions

/-! ### Keys -/

theorem local_expectFingerprint : Local expectFingerprint := by
  refine local_bind (local_takeIf? _) fun result => ?_
  cases result with
  | some fingerprint => exact local_pure fingerprint
  | none => exact local_fail _

theorem local_indexSpec? (fixed : Bool) : Local (indexSpec? fixed) := by
  refine local_bind (local_accept .star) fun starred => ?_
  cases starred with
  | false => exact local_bind (local_takeIf? _) fun _ => local_pure _
  | true =>
      cases fixed with
      | true => exact local_bind (local_fail _) fun _ => local_pure _
      | false => exact local_pure _

theorem local_expectSingleStep (fixed : Bool) : Local (expectSingleStep fixed) := by
  refine local_bind (local_indexSpec? fixed) fun result => ?_
  cases result with
  | some spec => exact local_bind (local_accept .hardened) fun _ => local_pure _
  | none => exact local_fail _

theorem local_pair? : Local pair? := by
  refine local_bind (local_accept .openAngle) fun opened => ?_
  cases opened with
  | false => exact local_pure none
  | true =>
      exact local_bind (local_expectSingleStep true) fun _ =>
        local_bind (local_expect .semicolon) fun _ =>
        local_bind (local_expectSingleStep true) fun _ =>
        local_bind (local_expect .closeAngle) fun _ =>
        local_bind (local_liftPath _) fun _ => local_pure _

theorem local_step? (fixed : Bool) : Local (step? fixed) := by
  refine local_bind (local_accept .slash) fun begun => ?_
  cases begun with
  | false => exact local_pure none
  | true =>
      refine local_bind local_pair? fun result => ?_
      cases result with
      | none => exact local_bind (local_expectSingleStep fixed) fun _ => local_pure _
      | some p =>
          cases fixed with
          | true => exact local_bind (local_fail _) fun _ => local_pure _
          | false => exact local_pure _

theorem local_steps (fixed : Bool) : Local (steps fixed) :=
  local_bind (local_many (readsAfter_step? fixed) (local_step? fixed)) fun _ =>
    local_bind (local_liftPath _) fun _ => local_pure _

theorem local_origin? : Local origin? := by
  refine local_bind (local_accept .openBracket) fun opened => ?_
  cases opened with
  | false => exact local_pure none
  | true =>
      exact local_bind local_expectFingerprint fun _ =>
        local_bind (local_steps true) fun _ =>
        local_bind (local_expect .closeBracket) fun _ => local_pure _

theorem local_material? (uncompressed : Bool) (kind : TokenKind) :
    Local (material? uncompressed kind) := by
  cases kind with
  | data | wif | keyword | int | address | mark => exact local_pure _
  | hdKey =>
      have hchildren : Local children? := local_bind (local_steps false) fun _ => local_pure _
      exact local_bind hchildren fun _ => local_pure _

/-- A key is read by an attempt that looks at one more token at most. -/
theorem exists_key?_eq_transaction (uncompressed : Bool) :
    ∃ attempt, Local attempt ∧ key? uncompressed = transaction attempt := by
  refine ⟨_, ?_, rfl⟩
  refine local_bind local_origin? fun origin => local_bind (local_takeIf? some) fun result => ?_
  cases result with
  | none => exact local_pure none
  | some kind => exact local_bind (local_material? uncompressed kind) fun _ => local_pure _

/-! ### Attempts -/

theorem bind_eq_error {m : ParserM α} {f : α → ParserM β} {e : ParseError}
    (h : (m >>= f) p = .error e q) :
    m p = .error e q ∨ ∃ a r, m p = .ok a r ∧ f a r = .error e q := by
  change EStateM.bind m f p = _ at h
  unfold EStateM.bind at h
  cases hrun : m p with
  | ok a r =>
      rw [hrun] at h
      exact .inr ⟨a, r, rfl, h⟩
  | error e' r =>
      rw [hrun] at h
      cases h
      exact .inl rfl

theorem cursor_of_transaction_eq_error {attempt : ParserM (Option α)} {e : ParseError}
    (h : transaction attempt p = .error e q) : q.cursor = p.cursor := by
  unfold transaction at h
  cases hrun : attempt p with
  | ok result r => cases result <;> simp [hrun] at h
  | error e' r =>
      rw [hrun] at h
      cases h
      rfl

theorem cursor_of_transaction_eq_none {attempt : ParserM (Option α)}
    (h : transaction attempt p = .ok none q) : q.cursor = p.cursor := by
  obtain ⟨r, -, rfl⟩ := transaction_eq_none h
  rfl

/-- One kind after the other is tried from the same place, and that is where a failure leaves the
cursor. -/
theorem cursor_of_firstOf_eq_error {parent : Option NodeKind}
    {attempt : NodeKind → ParserM (Option Node)} {kinds : List NodeKind} {e : ParseError}
    (h : firstOf parent attempt kinds p = .error e q) : q.cursor = p.cursor := by
  induction kinds generalizing p with
  | nil => cases h; rfl
  | cons kind kinds ih =>
      rcases bind_eq_error h with hrun | ⟨result, r, hrun, h⟩
      · exact cursor_of_transaction_eq_error hrun
      · cases result with
        | some n => cases h
        | none =>
            have hback := cursor_of_transaction_eq_none hrun
            exact (ih h).trans hback

/-- A walk that has read something has gone on, but not past the tokens. -/
theorem Spans.cursor_lt {used : List TokenKind} (h : Spans used p q) (hne : used ≠ []) :
    p.cursor < q.cursor ∧ q.cursor ≤ p.tokens.length := by
  have hcursor := h.cursor_eq
  have hlength := congrArg List.length h.rest_eq
  have hpos : 0 < used.length := List.length_pos_iff.mpr hne
  simp only [rest, List.length_map, List.length_drop, List.length_append] at hlength
  omega

theorem rest_getElem? (p : Parser) (i : Nat) : p.rest[i]? = p.kindAt? (p.cursor + i) := by
  simp [rest, kindAt?]

/-- What has been read is also next in a walk that agrees so far. -/
theorem Spans.rest_of_agrees {used : List TokenKind} (h : Spans used p q)
    (hagree : Agrees q.cursor p p') : ∃ more, p'.rest = used ++ more := by
  have hused : p'.rest.take used.length = used := by
    refine List.ext_getElem? fun i => ?_
    rw [List.getElem?_take]
    split
    · next hi =>
      have hplace : p.cursor + i < q.cursor := by rw [h.cursor_eq]; omega
      calc p'.rest[i]? = p'.kindAt? (p.cursor + i) := by rw [rest_getElem?, hagree.cursor_eq]
        _ = p.kindAt? (p.cursor + i) := hagree.kindAt?_eq _ (Nat.le_add_right _ _) hplace
        _ = p.rest[i]? := (rest_getElem? p i).symm
        _ = used[i]? := by rw [h.rest_eq, List.getElem?_append_left hi]
    · next hi => rw [List.getElem?_eq_none (Nat.le_of_not_lt hi)]
  refine ⟨p'.rest.drop used.length, ?_⟩
  calc p'.rest = p'.rest.take used.length ++ p'.rest.drop used.length :=
        (List.take_append_drop _ _).symm
    _ = used ++ p'.rest.drop used.length := by rw [hused]

theorem agrees_of_rest {used more more' : List TokenKind} (hcursor : p'.cursor = p.cursor)
    (h : p.rest = used ++ more) (h' : p'.rest = used ++ more') :
    Agrees (p.cursor + used.length) p p' := by
  refine ⟨hcursor, fun i hi hlt => ?_⟩
  obtain ⟨j, rfl⟩ := Nat.exists_eq_add_of_le hi
  have hj : j < used.length := Nat.lt_of_add_lt_add_left hlt
  calc p'.kindAt? (p.cursor + j) = p'.rest[j]? := by rw [rest_getElem?, hcursor]
    _ = used[j]? := by rw [h', List.getElem?_append_left hj]
    _ = p.rest[j]? := by rw [h, List.getElem?_append_left hj]
    _ = p.kindAt? (p.cursor + j) := rest_getElem? p j

/-- Wherever a script function is read, it is read from the tokens that it is made of. -/
theorem script_of_agrees {parent : Option NodeKind} {n : Node} (h : script parent p = .ok n q) :
    p.cursor < q.cursor ∧ q.cursor ≤ p.tokens.length ∧
      ∀ p', Agrees q.cursor p p' → ∃ q', script parent p' = .ok n q' ∧ q'.cursor = q.cursor := by
  obtain ⟨used, hphrase, hspan⟩ := (reads_script parent).sound h
  have hne : used ≠ [] := by
    obtain ⟨keyword, argument, rfl, -⟩ := exists_call_of_scriptFunction hphrase
    exact List.cons_ne_nil _ _
  obtain ⟨hlt, hle⟩ := hspan.cursor_lt hne
  refine ⟨hlt, hle, fun p' hagree => ?_⟩
  obtain ⟨more, hrest⟩ := hspan.rest_of_agrees hagree
  obtain ⟨q', hrun, hspan'⟩ := (reads_script parent).complete hphrase hrest (noneNext_nil more)
  exact ⟨q', hrun, by rw [hspan'.cursor_eq, hspan.cursor_eq, hagree.cursor_eq]⟩

theorem exists_spans_of_key? {uncompressed : Bool} {k : KeyExpression}
    (h : key? uncompressed p = .ok (some k) q) : ∃ used, used ≠ [] ∧ Spans used p q := by
  have hexpect : expectKey uncompressed p = .ok k q := by
    rw [expectKey, bind_of_ok h]
    rfl
  obtain ⟨used, hphrase, hspan⟩ := (reads_expectKey uncompressed).sound hexpect
  refine ⟨used, ?_, hspan⟩
  cases hphrase with
  | mk head tail =>
      obtain ⟨kind, more, rfl, -⟩ := exists_cons_of_material tail
      exact List.append_ne_nil_of_right_ne_nil _ (List.cons_ne_nil _ _)

/-- An attempt at a script function or at a key that fails, or that has no result, leaves the cursor
where it was.  One that has a result leaves it further on, among the tokens or behind the last one,
and has the same result and the same end wherever the tokens in between are the same: for a key, if
the next one is as well.  What stands before and behind them, the source and the journal do not
matter. -/
theorem attempts_delimited (parent : Option NodeKind) (uncompressed : Bool) (p : Parser) :
    (∀ e q, script parent p = .error e q → q.cursor = p.cursor) ∧
    (∀ e q, key? uncompressed p = .error e q → q.cursor = p.cursor) ∧
    (∀ q, key? uncompressed p = .ok none q → q.cursor = p.cursor) ∧
    (∀ n q, script parent p = .ok n q → p.cursor < q.cursor ∧ q.cursor ≤ p.tokens.length ∧
      ∀ p', Agrees q.cursor p p' → ∃ q', script parent p' = .ok n q' ∧ q'.cursor = q.cursor) ∧
    ∀ k q, key? uncompressed p = .ok (some k) q →
      p.cursor < q.cursor ∧ q.cursor ≤ p.tokens.length ∧
      ∀ p', Agrees (q.cursor + 1) p p' →
        ∃ q', key? uncompressed p' = .ok (some k) q' ∧ q'.cursor = q.cursor := by
  obtain ⟨attempt, hlocal, hkey⟩ := exists_key?_eq_transaction uncompressed
  refine ⟨fun e q h => ?_, fun e q h => ?_, fun q h => ?_, fun n q h => script_of_agrees h,
    fun k q h => ?_⟩
  · rw [script] at h
    exact cursor_of_firstOf_eq_error h
  · rw [hkey] at h
    exact cursor_of_transaction_eq_error h
  · rw [hkey] at h
    exact cursor_of_transaction_eq_none h
  · obtain ⟨used, hne, hspan⟩ := exists_spans_of_key? h
    obtain ⟨hlt, hle⟩ := hspan.cursor_lt hne
    refine ⟨hlt, hle, fun p' hagree => ?_⟩
    rw [hkey] at h ⊢
    obtain ⟨q', hrun, hcursor⟩ := hlocal.determined (transaction_eq_some_iff.mp h) hagree
    exact ⟨q', transaction_eq_some_iff.mpr hrun, hcursor⟩

/-- A parser behind the first of some tokens.  Where a third function lacks its keys, an origin has
a wildcard or an origin has no key, the cursor stays there.  Three functions in one another and a key
in front of a mark of hardening that is not its own are read in the same way with any other tokens in
front of them and behind them. -/
theorem attempts_delimited_of_nested :
    ∃ (walk : List TokenKind → Parser) (key : XKey) (n : Node) (k : KeyExpression),
      (∀ first more, (walk (first :: more)).cursor = 1 ∧ (walk (first :: more)).rest = more) ∧
      (∃ e q, script none (walk [.mark .comma, .keyword .sh, .mark .openParen, .keyword .wsh,
        .mark .openParen, .keyword .multi, .mark .openParen, .int 1, .mark .closeParen]) =
          .error e q ∧ q.cursor = 1) ∧
      (∃ e q, key? true (walk [.mark .comma, .mark .openBracket, .data [0, 0, 0, 1], .mark .slash,
        .mark .star, .mark .closeBracket, .hdKey key]) = .error e q ∧ q.cursor = 1) ∧
      (∃ q, key? true (walk [.mark .comma, .mark .openBracket, .data [0, 0, 0, 1], .mark .slash,
        .int 7, .mark .closeBracket, .mark .slash]) = .ok none q ∧ q.cursor = 1) ∧
      (∀ first last, ∃ q, script none (walk (first :: (Grammar.call .sh (Grammar.call .wsh
        (Grammar.call .pk [.hdKey key])) ++ last))) = .ok n q ∧ q.cursor = 11) ∧
      ∀ first last, ∃ q, key? true (walk (first :: ([.hdKey key, .mark .slash, .int 0,
        .mark .hardened, .mark .hardened] ++ last))) = .ok (some k) q ∧ q.cursor = 5 := by
  let walk (kinds : List TokenKind) : Parser := ⟨"", kinds.map fun kind => ⟨kind, 0, 0⟩, 1, []⟩
  let key : XKey :=
    .xpub ⟨.bitcoin, 0, 0, ⟨.zero, false⟩, ⟨List.replicate 32 0, rfl⟩, .generator⟩
  let hardened : Path := .ofSteps [.single ⟨.index .zero, true⟩]
  have hwalk : ∀ first more, (walk (first :: more)).cursor = 1 ∧ (walk (first :: more)).rest = more :=
    fun first more => ⟨rfl, by simp [walk, rest, Function.comp_def]⟩
  refine ⟨walk, key, .sh (.wsh (.key .pk ⟨none, .hd ⟨key, none⟩⟩)), ⟨none, .hd ⟨key, some hardened⟩⟩,
    hwalk, ?_, ?_, ?_, fun first last => ?_, fun first last => ?_⟩
  · let p := walk [.mark .comma, .keyword .sh, .mark .openParen, .keyword .wsh, .mark .openParen,
      .keyword .multi, .mark .openParen, .int 1, .mark .closeParen]
    have herror : ∀ r : EStateM.Result ParseError Parser Node,
        (EStateM.run' (fun _ => r) p).isNone = true → ∃ e q, r = .error e q := by
      intro r h
      cases r with
      | ok n q => cases h
      | error e q => exact ⟨e, q, rfl⟩
    obtain ⟨e, q, h⟩ := herror (script none p) (by decide +kernel)
    exact ⟨e, q, h, (attempts_delimited none true p).1 e q h⟩
  · let p := walk [.mark .comma, .mark .openBracket, .data [0, 0, 0, 1], .mark .slash, .mark .star,
      .mark .closeBracket, .hdKey key]
    obtain ⟨e, q, h⟩ : ∃ e q, key? true p = .error e q := ⟨_, _, rfl⟩
    exact ⟨e, q, h, (attempts_delimited none true p).2.1 e q h⟩
  · let p := walk [.mark .comma, .mark .openBracket, .data [0, 0, 0, 1], .mark .slash, .int 7,
      .mark .closeBracket, .mark .slash]
    obtain ⟨q, h⟩ : ∃ q, key? true p = .ok none q := ⟨_, rfl⟩
    exact ⟨q, h, (attempts_delimited none true p).2.2.1 q h⟩
  · let used := Grammar.call .sh (Grammar.call .wsh (Grammar.call .pk [.hdKey key]))
    have hphrase : ScriptFunction none used (.sh (.wsh (.key .pk ⟨none, .hd ⟨key, none⟩⟩))) :=
      .sh rfl (.wsh rfl (.key (f := .pk) rfl (.mk .absent (.hd .nil (by decide)))))
    let p := walk (.mark .comma :: (used ++ []))
    have hrest : p.rest = used ++ [] := (hwalk (.mark .comma) (used ++ [])).2
    obtain ⟨q, h, hspan⟩ := (reads_script none).complete hphrase hrest (noneNext_nil [])
    have hend : q.cursor = 11 := hspan.cursor_eq
    obtain ⟨-, -, hsame⟩ := (attempts_delimited none true p).2.2.2.1 _ q h
    let p' := walk (first :: (used ++ last))
    have hcursor : p'.cursor = p.cursor := rfl
    have hagree : Agrees q.cursor p p' :=
      hend ▸ agrees_of_rest hcursor hrest (hwalk first (used ++ last)).2
    obtain ⟨q', h', hend'⟩ := hsame p' hagree
    exact ⟨q', h', hend'.trans hend⟩
  · let used : List TokenKind :=
      [.hdKey key, .mark .slash, .int 0, .mark .hardened, .mark .hardened]
    let p := walk (.mark .comma :: (used ++ []))
    obtain ⟨q, h, hend⟩ : ∃ q, key? true p = .ok (some ⟨none, .hd ⟨key, some hardened⟩⟩) q ∧
      q.cursor = 5 := ⟨_, rfl, rfl⟩
    obtain ⟨-, -, hsame⟩ := (attempts_delimited none true p).2.2.2.2 _ q h
    let p' := walk (first :: (used ++ last))
    have hcursor : p'.cursor = p.cursor := rfl
    have hagree : Agrees (q.cursor + 1) p p' :=
      hend ▸ agrees_of_rest hcursor (hwalk _ (used ++ [])).2 (hwalk first (used ++ last)).2
    obtain ⟨q', h', hend'⟩ := hsame p' hagree
    exact ⟨q', h', hend'.trans hend⟩

end WalletExchange.Parser
