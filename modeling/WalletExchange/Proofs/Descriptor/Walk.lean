import WalletExchange.Descriptor.Parser

/-!
# Proofs — walks over tokens

What a step of a parser does to the tokens that are left.  `Parser.rest p` are the kinds of these
tokens, and `Spans used p q` says that the walk from `p` to `q` has read exactly `used`; the journal
is left out, since nothing is ever read from it.

`Reads m phrase barred` is the specification of a parser `m` by a phrase of the grammar: whatever
`m` reads is a phrase, and `m` reads every phrase that is not followed by a mark that would have
made it longer.
-/

namespace WalletExchange.Parser

variable {α β : Type} {p q r : Parser} {a : α} {b : β}

/-- The kinds of the tokens that are still to be read. -/
def rest (p : Parser) : List TokenKind := (p.tokens.drop p.cursor).map Token.kind

/-- The walk with one more token read. -/
def next (p : Parser) : Parser := { p with cursor := p.cursor + 1 }

theorem rest_next {kind : TokenKind} {more : List TokenKind} (h : p.rest = kind :: more) :
    p.next.rest = more := by
  have htail : p.next.rest = p.rest.tail := by simp [next, rest]
  rw [htail, h, List.tail_cons]

/-- The walk from `p` to `q` has read tokens of the kinds `used`. -/
structure Spans (used : List TokenKind) (p q : Parser) : Prop where
  source_eq : q.source = p.source
  tokens_eq : q.tokens = p.tokens
  cursor_eq : q.cursor = p.cursor + used.length
  rest_eq : p.rest = used ++ q.rest

namespace Spans

variable {us vs more : List TokenKind}

theorem refl (p : Parser) : Spans [] p p := ⟨rfl, rfl, rfl, rfl⟩

theorem next {kind : TokenKind} (h : p.rest = kind :: more) : Spans [kind] p p.next :=
  ⟨rfl, rfl, rfl, by rw [rest_next h, h, List.singleton_append]⟩

theorem trans (h₁ : Spans us p q) (h₂ : Spans vs q r) : Spans (us ++ vs) p r where
  source_eq := h₂.source_eq.trans h₁.source_eq
  tokens_eq := h₂.tokens_eq.trans h₁.tokens_eq
  cursor_eq := by rw [h₂.cursor_eq, h₁.cursor_eq, List.length_append, Nat.add_assoc]
  rest_eq := by rw [h₁.rest_eq, h₂.rest_eq, List.append_assoc]

theorem cons {kind : TokenKind} (h₁ : Spans [kind] p q) (h₂ : Spans vs q r) :
    Spans (kind :: vs) p r := h₁.trans h₂

/-- What is left after a walk is what was left before it, without what was read. -/
theorem rest_of_append (h : Spans us p q) (e : p.rest = us ++ more) : q.rest = more :=
  List.append_cancel_left (h.rest_eq.symm.trans e)

end Spans

/-- None of the marks is next. -/
def NoneNext (barred : List Mark) (more : List TokenKind) : Prop :=
  ∀ m ∈ barred, more.head? ≠ some (.mark m)

theorem noneNext_nil (more : List TokenKind) : NoneNext [] more := fun _ hm => by cases hm

theorem NoneNext.mono {barred barred' : List Mark} {more : List TokenKind}
    (h : NoneNext barred more) (hsub : barred' ⊆ barred) : NoneNext barred' more :=
  fun m hm => h m (hsub hm)

theorem noneNext_cons {barred : List Mark} {m : Mark} {more : List TokenKind} (h : m ∉ barred) :
    NoneNext barred (.mark m :: more) := by
  intro m' hm' heq
  cases heq
  exact h hm'

/-- `m` reads the phrases that relate the tokens they are made of to a value, where none of the
barred marks comes after the phrase. -/
structure Reads (m : ParserM α) (phrase : List TokenKind → α → Prop) (barred : List Mark) :
    Prop where
  sound : ∀ {p q : Parser} {a : α}, m p = .ok a q → ∃ used, phrase used a ∧ Spans used p q
  complete : ∀ {p : Parser} {used more : List TokenKind} {a : α}, phrase used a →
    p.rest = used ++ more → NoneNext barred more → ∃ q, m p = .ok a q ∧ Spans used p q

/-- `m` reads a mark and a phrase after it, or nothing where another token is next. -/
structure ReadsAfter (mark : Mark) (m : ParserM (Option α)) (phrase : List TokenKind → α → Prop)
    (barred : List Mark) : Prop where
  sound : ∀ {p q : Parser} {a : α}, m p = .ok (some a) q →
    ∃ used, phrase used a ∧ Spans (.mark mark :: used) p q
  complete : ∀ {p : Parser} {used more : List TokenKind} {a : α}, phrase used a →
    p.rest = .mark mark :: (used ++ more) → NoneNext barred more →
    ∃ q, m p = .ok (some a) q ∧ Spans (.mark mark :: used) p q
  absent : ∀ {p q : Parser}, m p = .ok none q → p = q ∧ p.rest.head? ≠ some (.mark mark)
  stops : ∀ {p : Parser}, p.rest.head? ≠ some (.mark mark) → m p = .ok none p

theorem Reads.run {m : ParserM α} {phrase : List TokenKind → α → Prop} {barred : List Mark}
    {used more : List TokenKind} (h : Reads m phrase barred) (hphrase : phrase used a)
    (hrest : p.rest = used ++ more) (hbarred : NoneNext barred more) :
    ∃ q, m p = .ok a q ∧ Spans used p q ∧ q.rest = more := by
  obtain ⟨q, hrun, hspan⟩ := h.complete hphrase hrest hbarred
  exact ⟨q, hrun, hspan, hspan.rest_of_append hrest⟩

/-! ### Running the parts of a parser -/

theorem bind_eq_ok_iff {m : ParserM α} {f : α → ParserM β} :
    (m >>= f) p = .ok b r ↔ ∃ a q, m p = .ok a q ∧ f a q = .ok b r := by
  change EStateM.bind m f p = _ ↔ _
  unfold EStateM.bind
  cases m p with
  | ok a q =>
      constructor
      · exact fun h => ⟨a, q, rfl, h⟩
      · rintro ⟨_, _, ⟨⟩, h⟩
        exact h
  | error e q =>
      constructor
      · exact fun h => by cases h
      · rintro ⟨_, _, ⟨⟩, _⟩

theorem bind_of_ok {m : ParserM α} {f : α → ParserM β} (h : m p = .ok a q) :
    (m >>= f) p = f a q := by
  change EStateM.bind m f p = _
  rw [EStateM.bind, h]

theorem bind_of_error {m : ParserM α} {f : α → ParserM β} {e : ParseError}
    (h : m p = .error e q) : (m >>= f) p = .error e q := by
  change EStateM.bind m f p = _
  rw [EStateM.bind, h]

theorem pure_eq_ok_iff {a' : α} : (pure a : ParserM α) p = .ok a' q ↔ a = a' ∧ p = q := by
  change EStateM.Result.ok a p = _ ↔ _
  simp

theorem bind_pure_eq_ok_iff {m : ParserM α} {f : α → β} :
    (m >>= fun a => pure (f a)) p = .ok b q ↔ ∃ a, m p = .ok a q ∧ f a = b := by
  rw [bind_eq_ok_iff]
  constructor
  · rintro ⟨a, r, hrun, h⟩
    obtain ⟨hvalue, rfl⟩ := pure_eq_ok_iff.mp h
    exact ⟨a, hrun, hvalue⟩
  · rintro ⟨a, hrun, rfl⟩
    exact ⟨a, q, hrun, rfl⟩

theorem get_eq : (get : ParserM Parser) p = .ok p p := rfl

theorem fail_eq (fault : ParseFault) :
    (fail fault : ParserM α) p = .error (p.errorAt fault) p := rfl

theorem fail_ne_ok {fault : ParseFault} : (fail fault : ParserM α) p ≠ .ok a q := by
  rw [fail_eq]; exact fun h => by cases h

theorem fail_bind_ne_ok {fault : ParseFault} {f : α → ParserM β} :
    (fail fault >>= f) p ≠ .ok b q := by
  intro h
  obtain ⟨_, _, hfail, -⟩ := bind_eq_ok_iff.mp h
  exact fail_ne_ok hfail

theorem peek?_eq : peek? p = .ok p.rest.head? p := by
  change EStateM.Result.ok _ _ = _
  simp [rest]

/-- A token is stepped over if a value can be made of it, and else nothing happens. -/
theorem takeIf?_eq (read : TokenKind → Option α) :
    takeIf? read p = .ok (p.rest.head?.bind read)
      (if (p.rest.head?.bind read).isSome then p.next else p) := by
  rw [takeIf?, bind_of_ok peek?_eq]
  cases p.rest.head?.bind read <;> rfl

theorem takeIf?_of_rest {read : TokenKind → Option α} {kind : TokenKind} {more : List TokenKind}
    (hrest : p.rest = kind :: more) (hread : read kind = some a) :
    takeIf? read p = .ok (some a) p.next := by
  rw [takeIf?_eq, hrest, List.head?_cons, Option.bind_some, hread]
  rfl

theorem takeIf?_of_none {read : TokenKind → Option α} (h : p.rest.head?.bind read = none) :
    takeIf? read p = .ok none p := by
  rw [takeIf?_eq, h]
  rfl

theorem takeIf?_eq_some {read : TokenKind → Option α} (h : takeIf? read p = .ok (some a) q) :
    ∃ kind, read kind = some a ∧ Spans [kind] p q := by
  rw [takeIf?_eq] at h
  obtain ⟨hvalue, rfl⟩ := EStateM.Result.ok.inj h
  obtain ⟨kind, hhead, hread⟩ := Option.bind_eq_some_iff.mp hvalue
  obtain ⟨more, hmore⟩ := List.head?_eq_some_iff.mp hhead
  rw [hvalue]
  exact ⟨kind, hread, .next hmore⟩

theorem takeIf?_eq_none {read : TokenKind → Option α} (h : takeIf? read p = .ok none q) :
    p = q ∧ p.rest.head?.bind read = none := by
  rw [takeIf?_eq] at h
  obtain ⟨hvalue, rfl⟩ := EStateM.Result.ok.inj h
  rw [hvalue]
  exact ⟨rfl, rfl⟩

section Expected

variable {fault : ParseFault} {f : Option α → ParserM α} {phrase : List TokenKind → α → Prop}

/-- What has to follow is read as what may follow is. -/
theorem reads_expected {attempt : ParserM (Option α)} {barred : List Mark}
    (hsome : ∀ a, f (some a) = pure a) (hnone : f none = fail fault)
    (hsound : ∀ {p q a}, attempt p = .ok (some a) q → ∃ used, phrase used a ∧ Spans used p q)
    (hcomplete : ∀ {p used more a}, phrase used a → p.rest = used ++ more →
      NoneNext barred more → ∃ q, attempt p = .ok (some a) q ∧ Spans used p q) :
    Reads (attempt >>= f) phrase barred where
  sound {p q a} h := by
    obtain ⟨result, r, hrun, h⟩ := bind_eq_ok_iff.mp h
    cases result with
    | none => rw [hnone] at h; exact absurd h fail_ne_ok
    | some a' =>
        rw [hsome] at h
        obtain ⟨rfl, rfl⟩ := pure_eq_ok_iff.mp h
        exact hsound hrun
  complete {p used more a} hphrase hrest hbarred := by
    obtain ⟨q, hrun, hspan⟩ := hcomplete hphrase hrest hbarred
    refine ⟨q, ?_, hspan⟩
    rw [bind_of_ok hrun, hsome]
    rfl

/-- A token of which a value has to be made. -/
theorem reads_expectedToken {read : TokenKind → Option α} (hsome : ∀ a, f (some a) = pure a)
    (hnone : f none = fail fault)
    (hphrase : ∀ used a, phrase used a ↔ ∃ kind, used = [kind] ∧ read kind = some a) :
    Reads (takeIf? read >>= f) phrase [] := by
  refine reads_expected hsome hnone ?_ ?_
  · intro p q a h
    obtain ⟨kind, hread, hspan⟩ := takeIf?_eq_some h
    exact ⟨[kind], (hphrase _ _).mpr ⟨kind, rfl, hread⟩, hspan⟩
  · intro p used more a h hrest _
    obtain ⟨kind, rfl, hread⟩ := (hphrase _ _).mp h
    exact ⟨p.next, takeIf?_of_rest hrest hread, .next hrest⟩

end Expected

theorem accept_of_rest {m : Mark} {more : List TokenKind} (h : p.rest = .mark m :: more) :
    accept m p = .ok true p.next := by
  rw [accept, bind_of_ok (takeIf?_of_rest h (a := ()) (by simp))]
  rfl

theorem accept_of_ne {m : Mark} (h : p.rest.head? ≠ some (.mark m)) :
    accept m p = .ok false p := by
  have hnone : (p.rest.head?.bind fun kind => if kind = .mark m then some () else none) = none := by
    cases hhead : p.rest.head? with
    | none => rfl
    | some kind => simpa [hhead] using h
  rw [accept, bind_of_ok (takeIf?_of_none hnone)]
  rfl

theorem accept_eq_true {m : Mark} (h : accept m p = .ok true q) : Spans [.mark m] p q := by
  by_cases hhead : p.rest.head? = some (.mark m)
  · obtain ⟨more, hmore⟩ := List.head?_eq_some_iff.mp hhead
    rw [accept_of_rest hmore] at h
    cases h
    exact .next hmore
  · rw [accept_of_ne hhead] at h
    cases h

theorem accept_eq_false {m : Mark} (h : accept m p = .ok false q) :
    p = q ∧ p.rest.head? ≠ some (.mark m) := by
  by_cases hhead : p.rest.head? = some (.mark m)
  · obtain ⟨more, hmore⟩ := List.head?_eq_some_iff.mp hhead
    rw [accept_of_rest hmore] at h
    cases h
  · rw [accept_of_ne hhead] at h
    cases h
    exact ⟨rfl, hhead⟩

/-- What stands behind an optional mark is read only where the mark is. -/
theorem readsAfter_of_accept {m : Mark} {body : ParserM (Option α)}
    {phrase : List TokenKind → α → Prop} {barred : List Mark}
    (h : Reads body (fun used result => ∃ a, result = some a ∧ phrase used a) barred) :
    ReadsAfter m (do if ← accept m then body else return none) phrase barred where
  sound {p q a} hrun := by
    obtain ⟨accepted, r, haccept, hrun⟩ := bind_eq_ok_iff.mp hrun
    cases accepted with
    | false => cases (pure_eq_ok_iff.mp hrun).1
    | true =>
        obtain ⟨used, ⟨_, ⟨⟩, hphrase⟩, hspan⟩ := h.sound hrun
        exact ⟨used, hphrase, (accept_eq_true haccept).cons hspan⟩
  complete {p used more a} hphrase hrest hbarred := by
    obtain ⟨q, hrun, hspan⟩ := h.complete ⟨a, rfl, hphrase⟩ (rest_next hrest) hbarred
    refine ⟨q, ?_, (Spans.next hrest).cons hspan⟩
    rw [bind_of_ok (accept_of_rest hrest), if_pos rfl, hrun]
  absent {p q} hrun := by
    obtain ⟨accepted, r, haccept, hrun⟩ := bind_eq_ok_iff.mp hrun
    cases accepted with
    | false =>
        obtain ⟨-, rfl⟩ := pure_eq_ok_iff.mp hrun
        exact accept_eq_false haccept
    | true =>
        obtain ⟨_, ⟨_, ⟨⟩, _⟩, _⟩ := h.sound hrun
  stops {p} hhead := by
    rw [bind_of_ok (accept_of_ne hhead)]
    rfl

theorem expect_of_rest {m : Mark} {more : List TokenKind} (h : p.rest = .mark m :: more) :
    expect m p = .ok () p.next := by
  rw [expect, bind_of_ok (accept_of_rest h)]
  rfl

theorem expect_eq_ok {m : Mark} (h : expect m p = .ok () q) : Spans [.mark m] p q := by
  obtain ⟨accepted, r, haccept, h⟩ := bind_eq_ok_iff.mp h
  cases accepted with
  | true => cases h; exact accept_eq_true haccept
  | false => exact absurd h fail_ne_ok

theorem liftPath_eq_ok_iff {result : Except PathError α} :
    liftPath result p = .ok a q ↔ result = .ok a ∧ p = q := by
  cases result with
  | ok a' => simp [liftPath, pure_eq_ok_iff]
  | error e => simp [liftPath, fail_ne_ok]

/-- An attempt that has a result is not undone. -/
theorem transaction_eq_some_iff {attempt : ParserM (Option α)} :
    transaction attempt p = .ok (some a) q ↔ attempt p = .ok (some a) q := by
  unfold transaction
  cases attempt p with
  | ok result r => cases result <;> simp
  | error e r => simp

/-- An attempt that has no result leaves the cursor where it was. -/
theorem transaction_eq_none {attempt : ParserM (Option α)}
    (h : transaction attempt p = .ok none q) :
    ∃ r, attempt p = .ok none r ∧ q = { r with cursor := p.cursor } := by
  unfold transaction at h
  cases hrun : attempt p with
  | ok result r =>
      rw [hrun] at h
      cases result with
      | none => cases h; exact ⟨r, rfl, rfl⟩
      | some a => cases h
  | error e r => rw [hrun] at h; cases h

theorem transaction_of_none {attempt : ParserM (Option α)} (h : attempt p = .ok none p) :
    transaction attempt p = .ok none p := by
  rw [transaction, h]

end WalletExchange.Parser
