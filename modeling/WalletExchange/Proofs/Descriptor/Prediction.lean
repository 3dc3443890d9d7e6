import Mathlib.Logic.ExistsUnique
import WalletExchange.Proofs.Descriptor.Composition
import WalletExchange.Proofs.Descriptor.Functions

/-!
# Proofs — trying is as good as looking ahead

`script` tries one kind after the other and takes back what a kind without a result has done.
`predicted` looks at the next token, takes the only kind that the keyword there names, and tries
nothing else.  They come to the same: to the same function at the same place, or to the same error.

Two things make them differ on the way.  An attempt at a kind that does not fit is written into the
journal, so the parsers of the argument start from different walks; `Unrecorded` says that a walk
comes to the same whatever is in the journal.  And an attempt that fails ends the search, where one
without a result does not; an attempt without a result is one at a kind that the next token does not
name, so which kinds come before does not matter.

Main statements:

* `outcome_scriptIn` — in whatever order the kinds are tried, what comes out is what was predicted.
* `script_predicted` — this for the order of the parser, and for any other.
-/

namespace WalletExchange.Parser

variable {α β : Type} {p p' q : Parser} {parent : Option NodeKind}

/-! ### What a walk comes to -/

/-- The walk without what has been written into its journal. -/
def silent (p : Parser) : Parser := { p with journal := [] }

/-- What a walk comes to, whatever is in the journal: a result and the place where it ends, or an
error. -/
def outcome (m : ParserM α) (p : Parser) : Except ParseError (α × Parser) :=
  match m p with
  | .ok a q => .ok (a, q.silent)
  | .error e _ => .error e

/-- The journal is nothing to a walk. -/
def Unrecorded (m : ParserM α) : Prop := ∀ p, outcome m p.silent = outcome m p

theorem Unrecorded.outcome_eq {m : ParserM α} (hm : Unrecorded m) (h : p.silent = p'.silent) :
    outcome m p = outcome m p' := by
  rw [← hm p, h, hm p']

theorem outcome_of_ok {m : ParserM α} {a : α} (h : m p = .ok a q) :
    outcome m p = .ok (a, q.silent) := by
  rw [outcome, h]

theorem outcome_of_error {m : ParserM α} {e : ParseError} (h : m p = .error e q) :
    outcome m p = .error e := by
  rw [outcome, h]

theorem outcome_eq_ok_iff {m : ParserM α} {a : α} {r : Parser} :
    outcome m p = .ok (a, r) ↔ ∃ q, m p = .ok a q ∧ q.silent = r := by
  rw [outcome]
  cases m p with
  | ok a' q => simp [and_assoc]
  | error e q => simp

theorem outcome_eq_error_iff {m : ParserM α} {e : ParseError} :
    outcome m p = .error e ↔ ∃ q, m p = .error e q := by
  rw [outcome]
  cases m p with
  | ok a q => simp
  | error e' q => simp

/-- The second part of a walk starts where the first one ends. -/
theorem outcome_bind {m : ParserM α} {f : α → ParserM β} (hf : ∀ a, Unrecorded (f a)) :
    outcome (m >>= f) p = (outcome m p).bind fun r => outcome (f r.1) r.2 := by
  have hrun : (m >>= f) p = EStateM.bind m f p := rfl
  rw [outcome, hrun, EStateM.bind, outcome]
  cases m p with
  | ok a q => exact (hf a q).symm
  | error e q => rfl

theorem outcome_bind_pure {m : ParserM α} {f : α → β} :
    outcome (m >>= fun a => pure (f a)) p = (outcome m p).map fun r => (f r.1, r.2) := by
  cases hrun : m p with
  | ok a q => rw [outcome_of_ok hrun, outcome_of_ok (bind_pure_eq_ok_iff.mpr ⟨a, hrun, rfl⟩)]; rfl
  | error e q => rw [outcome_of_error hrun, outcome_of_error (bind_of_error hrun)]; rfl

theorem outcome_bind_congr {m m' : ParserM α} {f f' : α → ParserM β} (hf : ∀ a, Unrecorded (f a))
    (hf' : ∀ a, Unrecorded (f' a)) (hm : outcome m p = outcome m' p)
    (heq : ∀ a q, outcome (f a) q = outcome (f' a) q) :
    outcome (m >>= f) p = outcome (m' >>= f') p := by
  rw [outcome_bind hf, outcome_bind hf', hm]
  exact congrArg _ (funext fun r => heq r.1 r.2)

/-- An attempt without a result ends where it began. -/
theorem outcome_transaction {m : ParserM (Option α)} :
    outcome (transaction m) p = (outcome m p).map fun r =>
      if r.1.isSome then r else (none, { r.2 with cursor := p.cursor }) := by
  rw [outcome, transaction, outcome]
  cases m p with
  | ok result q => cases result <;> rfl
  | error e q => rfl

theorem Unrecorded.bind {m : ParserM α} {f : α → ParserM β} (hm : Unrecorded m)
    (hf : ∀ a, Unrecorded (f a)) : Unrecorded (m >>= f) := by
  intro p
  rw [outcome_bind hf, outcome_bind hf, hm p]

theorem unrecorded_takeIf? (read : TokenKind → Option α) : Unrecorded (takeIf? read) := by
  intro p
  have hrest : p.silent.rest = p.rest := rfl
  rw [outcome_of_ok (takeIf?_eq read), outcome_of_ok (takeIf?_eq read), hrest]
  cases p.rest.head?.bind read <;> rfl

theorem unrecorded_upTo {item : ParserM (Option α)} (hitem : Unrecorded item) (n : Nat) :
    Unrecorded (upTo item n) := by
  induction n with
  | zero => exact fun _ => rfl
  | succ n ih =>
      refine hitem.bind fun result => ?_
      cases result with
      | none => exact fun _ => rfl
      | some a => exact ih.bind fun _ _ => rfl

/-- Nothing that the parsers of arguments are put together from reads the journal. -/
theorem compositional_unrecorded : Compositional Unrecorded where
  result _ _ := rfl
  failure _ _ := rfl
  look _ := rfl
  take := unrecorded_takeIf?
  sequence := Unrecorded.bind
  repetition hitem p := unrecorded_upTo hitem (p.tokens.length - p.cursor) p
  attempt hm p := by
    rw [outcome_transaction, outcome_transaction, hm p]
    rfl

/-! ### Looking ahead -/

/-- Something in parentheses. -/
def parenthesized (m : ParserM Node) : ParserM Node := do
  expect .openParen
  let node ← m
  expect .closeParen
  return node

/-- The function that the next token names. -/
def predicted (parent : Option NodeKind) : ParserM Node := do
  match ← peek? with
  | some (.keyword keyword) =>
    if allowed : (NodeKind.ofKeyword keyword).allowedIn parent = true then
      advance
      parenthesized <| argument (NodeKind.ofKeyword keyword) keyword fun nests =>
        have := room_lt nests allowed
        predicted (some (NodeKind.ofKeyword keyword))
    else fail (.misplaced keyword parent)
  | _ => fail (.expectedScriptFunction parent)
termination_by room parent

/-- A function inside a parent, where the kinds are tried in an order that may be another one at
every place. -/
def scriptIn (order : Parser → Option NodeKind → List NodeKind) (parent : Option NodeKind) :
    ParserM Node := fun p =>
  firstOf parent
    (fun kind => node? kind parent fun nests allowed =>
      have := room_lt nests allowed
      scriptIn order (some kind))
    (order p parent) p
termination_by room parent

theorem script_eq_scriptIn (parent : Option NodeKind) :
    script parent = scriptIn (fun _ _ => NodeKind.priority) parent := by
  have hinner : ∀ (kind : NodeKind) (nests : kind.nests = true)
      (allowed : kind.allowedIn parent = true),
      script (some kind) = scriptIn (fun _ _ => NodeKind.priority) (some kind) := by
    intro kind nests allowed
    have := room_lt nests allowed
    exact script_eq_scriptIn (some kind)
  rw [script]
  funext p
  rw [scriptIn]
  congr 1
  funext kind
  congr 1
  funext nests allowed
  exact hinner kind nests allowed
termination_by room parent

section Parenthesized

variable {m m' : ParserM Node}

theorem unrecorded_parenthesized (hm : Unrecorded m) : Unrecorded (parenthesized m) :=
  (compositional_unrecorded.expect .openParen).bind fun _ => hm.bind fun _ =>
    (compositional_unrecorded.expect .closeParen).bind fun _ => compositional_unrecorded.result _

theorem outcome_parenthesized_congr (hm : Unrecorded m) (hm' : Unrecorded m')
    (h : ∀ q, outcome m q = outcome m' q) :
    outcome (parenthesized m) p = outcome (parenthesized m') p := by
  have hclose (node : Node) : Unrecorded (expect .closeParen >>= fun _ => pure node) :=
    (compositional_unrecorded.expect .closeParen).bind fun _ => compositional_unrecorded.result _
  refine outcome_bind_congr (fun _ => hm.bind hclose) (fun _ => hm'.bind hclose) rfl fun _ q => ?_
  exact outcome_bind_congr hclose hclose (h q) fun _ _ => rfl

theorem outcome_argument_congr {kind : NodeKind} {keyword : Keyword}
    {inner inner' : kind.nests = true → ParserM Node}
    (h : ∀ nests q, outcome (inner nests) q = outcome (inner' nests) q) :
    outcome (argument kind keyword inner) p = outcome (argument kind keyword inner') p := by
  cases kind with
  | raw | key | multi | addr => rfl
  | wsh | sh =>
      exact outcome_bind_congr (fun _ _ => rfl) (fun _ _ => rfl) (h rfl p) fun _ _ => rfl

end Parenthesized

theorem unrecorded_predicted (parent : Option NodeKind) : Unrecorded (predicted parent) := by
  have hinner : ∀ (kind : NodeKind) (nests : kind.nests = true)
      (allowed : kind.allowedIn parent = true), Unrecorded (predicted (some kind)) := by
    intro kind nests allowed
    have := room_lt nests allowed
    exact unrecorded_predicted (some kind)
  rw [predicted]
  refine compositional_unrecorded.look.bind fun next => ?_
  split
  · split
    · next allowed =>
      refine Unrecorded.bind (fun _ => rfl) fun _ => unrecorded_parenthesized ?_
      exact compositional_unrecorded.argument _ fun nests => hinner _ nests allowed
    · exact compositional_unrecorded.failure trivial
  · exact compositional_unrecorded.failure trivial
termination_by room parent

/-! ### The keyword that is next -/

section Keywords

variable {keyword : Keyword}

theorem outcome_predicted (hnext : p.rest.head? = some (.keyword keyword)) :
    outcome (predicted parent) p =
      if (NodeKind.ofKeyword keyword).allowedIn parent = true then
        outcome (parenthesized (argument (NodeKind.ofKeyword keyword) keyword fun _ =>
          predicted (some (NodeKind.ofKeyword keyword)))) p.next
      else .error (p.errorAt (.misplaced keyword parent)) := by
  rw [predicted, outcome, bind_of_ok peek?_eq, hnext]
  by_cases allowed : (NodeKind.ofKeyword keyword).allowedIn parent = true
  · simp only [dif_pos allowed, if_pos allowed]
    rfl
  · simp only [dif_neg allowed, if_neg allowed]
    rfl

theorem outcome_predicted_of_ne (hnext : ∀ keyword, p.rest.head? ≠ some (.keyword keyword)) :
    outcome (predicted parent) p = .error (p.errorAt (.expectedScriptFunction parent)) := by
  rw [predicted, outcome, bind_of_ok peek?_eq]
  cases hhead : p.rest.head? with
  | none => rfl
  | some kind =>
      cases kind with
      | keyword keyword => exact absurd hhead (hnext keyword)
      | data | int | wif | hdKey | address | mark => rfl

variable {kind : NodeKind} {inner : kind.nests = true → kind.allowedIn parent = true → ParserM Node}

/-- An attempt at a kind that the next token does not name has no result. -/
theorem node?_eq_none_of_ne
    (hnext : ∀ keyword, p.rest.head? = some (.keyword keyword) →
      NodeKind.ofKeyword keyword ≠ kind) :
    node? kind parent inner p = .ok none p := by
  have hnone : p.rest.head?.bind (keywordOf? kind) = none := by
    rw [Option.bind_eq_none_iff]
    intro token htoken
    rw [Option.eq_none_iff_forall_ne_some]
    intro k hk
    obtain ⟨rfl, hkind⟩ := keywordOf?_eq_some_iff.mp hk
    exact hnext k htoken hkind
  rw [node?, keyword?_eq, bind_of_ok (takeIf?_of_none hnone)]
  rfl

/-- An attempt at the kind that the next token names is an attempt at what stands behind it. -/
theorem outcome_node? (hnext : p.rest.head? = some (.keyword keyword))
    (hkind : NodeKind.ofKeyword keyword = kind) :
    outcome (node? kind parent inner) p =
      (if allowed : kind.allowedIn parent = true then
        outcome (parenthesized (argument kind keyword fun nests => inner nests allowed)) p.next
      else .error (p.errorAt (.misplaced keyword parent))).map fun r => (some r.1, r.2) := by
  obtain ⟨more, hrest⟩ := List.head?_eq_some_iff.mp hnext
  have hread : keywordOf? kind (.keyword keyword) = some keyword :=
    keywordOf?_eq_some_iff.mpr ⟨rfl, hkind⟩
  rw [outcome, node?, keyword?_eq, bind_of_ok (takeIf?_of_rest hrest hread)]
  by_cases allowed : kind.allowedIn parent = true
  · simp only [dif_pos allowed]
    rw [← outcome_bind_pure, parenthesized]
    simp only [bind_assoc, pure_bind]
    rfl
  · simp only [dif_neg allowed]
    rfl

end Keywords

/-! ### One kind after the other -/

section Alternatives

variable {attempt : NodeKind → ParserM (Option Node)} {kind : NodeKind} {kinds : List NodeKind}

/-- A kind that does not fit is passed over. -/
theorem exists_firstOf_cons_eq (parent : Option NodeKind) (h : attempt kind p = .ok none p) :
    ∃ p', p'.silent = p.silent ∧
      firstOf parent attempt (kind :: kinds) p = firstOf parent attempt kinds p' := by
  let text := s!"Descriptor alternative `{kind.name}` does not match at token {p.cursor}"
  refine ⟨{ p with journal := p.journal ++ [⟨.trace, text⟩] }, rfl, ?_⟩
  rw [firstOf, bind_of_ok (transaction_of_none h)]
  rfl

/-- Where no kind fits, the failure is at the place where all of them have been tried. -/
theorem outcome_firstOf_of_none (place : Parser)
    (h : ∀ kind p, p.silent = place → attempt kind p = .ok none p) (hp : p.silent = place) :
    outcome (firstOf parent attempt kinds) p =
      .error (place.errorAt (.expectedScriptFunction parent)) := by
  induction kinds generalizing p with
  | nil =>
      subst hp
      rfl
  | cons kind kinds ih =>
      obtain ⟨p', hsilent, hrun⟩ := exists_firstOf_cons_eq parent (h kind p hp)
      rw [outcome, hrun]
      exact ih (hsilent.trans hp)

/-- A kind that fits ends the search, with a result or with an error. -/
theorem outcome_firstOf_of_eq {m : ParserM Node}
    (h : outcome (attempt kind) p = (outcome m p).map fun r => (some r.1, r.2)) :
    outcome (firstOf parent attempt (kind :: kinds)) p = outcome m p := by
  cases hrun : m p with
  | ok n q =>
      rw [outcome_of_ok hrun] at h
      obtain ⟨r, hattempt, hend⟩ := outcome_eq_ok_iff.mp h
      rw [firstOf, outcome, bind_of_ok (transaction_eq_some_iff.mpr hattempt), outcome_of_ok hrun]
      exact congrArg (fun r => Except.ok (n, r)) hend
  | error e q =>
      rw [outcome_of_error hrun] at h
      obtain ⟨r, hattempt⟩ := outcome_eq_error_iff.mp h
      have htried : transaction (attempt kind) p = .error e { r with cursor := p.cursor } := by
        rw [transaction, hattempt]
      rw [firstOf, outcome_of_error (bind_of_error htried), outcome_of_error hrun]

/-- The kinds before the one that fits leave no trace but in the journal. -/
theorem outcome_firstOf_of_mem {place : Parser} {m : ParserM Node} (hm : Unrecorded m)
    (hkind : ∀ p, p.silent = place →
      outcome (attempt kind) p = (outcome m p).map fun r => (some r.1, r.2))
    (hother : ∀ other p, other ≠ kind → p.silent = place → attempt other p = .ok none p)
    (hmem : kind ∈ kinds) (hp : p.silent = place) :
    outcome (firstOf parent attempt kinds) p = outcome m p := by
  induction kinds generalizing p with
  | nil => cases hmem
  | cons other kinds ih =>
      by_cases heq : other = kind
      · subst heq
        exact outcome_firstOf_of_eq (hkind p hp)
      · have hmem' : kind ∈ kinds := (List.mem_cons.mp hmem).resolve_left (Ne.symm heq)
        obtain ⟨p', hsilent, hrun⟩ := exists_firstOf_cons_eq parent (hother other p heq hp)
        rw [outcome, hrun]
        exact (ih hmem' (hsilent.trans hp)).trans (hm.outcome_eq hsilent)

end Alternatives

/-- In whatever order the kinds are tried, what comes out is what the next token predicts. -/
theorem outcome_scriptIn {order : Parser → Option NodeKind → List NodeKind}
    (horder : ∀ p parent kind, kind ∈ order p parent) (parent : Option NodeKind) (p : Parser) :
    outcome (scriptIn order parent) p = outcome (predicted parent) p := by
  have hinner : ∀ (kind : NodeKind) (nests : kind.nests = true)
      (allowed : kind.allowedIn parent = true) (q : Parser),
      outcome (scriptIn order (some kind)) q = outcome (predicted (some kind)) q := by
    intro kind nests allowed
    have := room_lt nests allowed
    exact outcome_scriptIn horder (some kind)
  have hunrecorded (kind : NodeKind) (nests : kind.nests = true)
      (allowed : kind.allowedIn parent = true) : Unrecorded (scriptIn order (some kind)) := by
    intro q
    rw [hinner kind nests allowed, hinner kind nests allowed, unrecorded_predicted (some kind) q]
  rw [outcome, scriptIn]
  change outcome (firstOf parent _ (order p parent)) p = _
  -- all attempts start at the same place, and the same token is next there
  have hrest {q : Parser} (hq : q.silent = p.silent) : q.rest.head? = p.rest.head? := by
    have hrest : q.silent.rest.head? = p.silent.rest.head? := by rw [hq]
    exact hrest
  by_cases hnext : ∃ keyword, p.rest.head? = some (.keyword keyword)
  · obtain ⟨keyword, hnext⟩ := hnext
    refine outcome_firstOf_of_mem (unrecorded_predicted parent) ?_ ?_
      (horder p parent (NodeKind.ofKeyword keyword)) rfl
    · intro q hq
      rw [outcome_node? ((hrest hq).trans hnext) rfl, outcome_predicted ((hrest hq).trans hnext)]
      by_cases allowed : (NodeKind.ofKeyword keyword).allowedIn parent = true
      · rw [dif_pos allowed, if_pos allowed]
        refine congrArg _ (outcome_parenthesized_congr ?_ ?_ fun r => ?_)
        · exact compositional_unrecorded.argument _ fun nests => hunrecorded _ nests allowed
        · exact compositional_unrecorded.argument _ fun _ => unrecorded_predicted _
        · exact outcome_argument_congr fun nests => hinner _ nests allowed
      · rw [dif_neg allowed, if_neg allowed]
    · intro other q hother hq
      refine node?_eq_none_of_ne fun k hk => ?_
      rw [hrest hq, hnext] at hk
      cases hk
      exact hother.symm
  · have hne (keyword : Keyword) : p.rest.head? ≠ some (.keyword keyword) :=
      fun h => hnext ⟨keyword, h⟩
    rw [outcome_predicted_of_ne hne]
    refine outcome_firstOf_of_none p.silent (fun kind q hq => ?_) rfl
    refine node?_eq_none_of_ne fun k hk => absurd ((hrest hq).symm.trans hk) (hne k)
termination_by room parent

/-- The parser of script functions comes to the function, or to the error, that is found by looking
at the next token and trying nothing else, and to the same in whatever order it tries the kinds. -/
theorem script_predicted (parent : Option NodeKind) (p : Parser) :
    (∀ keyword, ∃! kind : NodeKind, kind.accepts keyword = true) ∧
    outcome (script parent) p = outcome (predicted parent) p ∧
    ∀ order : Parser → Option NodeKind → List NodeKind,
      (∀ q parent, (order q parent).Perm NodeKind.priority) →
      outcome (scriptIn order parent) p = outcome (script parent) p := by
  have hpredicted : outcome (script parent) p = outcome (predicted parent) p := by
    rw [script_eq_scriptIn]
    exact outcome_scriptIn (fun _ _ => mem_priority) parent p
  refine ⟨fun keyword => ?_, hpredicted, fun order horder => ?_⟩
  · exact ⟨NodeKind.ofKeyword keyword, NodeKind.accepts_iff.mpr rfl,
      fun kind hkind => (NodeKind.accepts_iff.mp hkind).symm⟩
  · rw [hpredicted]
    exact outcome_scriptIn (fun q parent kind => (horder q parent).mem_iff.mpr (mem_priority kind))
      parent p

theorem script_predicted_of_reversed :
    let p : Parser := ⟨"sh(wsh(tr(", [⟨.keyword .sh, 0, 2⟩, ⟨.mark .openParen, 2, 3⟩,
      ⟨.keyword .wsh, 3, 6⟩, ⟨.mark .openParen, 6, 7⟩, ⟨.keyword .tr, 7, 9⟩,
      ⟨.mark .openParen, 9, 10⟩], 0, []⟩
    NodeKind.priority.reverse.Perm NodeKind.priority ∧
    outcome (script none) p = outcome (predicted none) p ∧
    outcome (scriptIn (fun _ _ => NodeKind.priority.reverse) none) p = outcome (script none) p ∧
    outcome (predicted none) p = .error ⟨.misplaced .tr (some .wsh), 4, 7, "sh(wsh(tr("⟩ := by
  intro p
  obtain ⟨-, hpredicted, horder⟩ := script_predicted none p
  refine ⟨List.reverse_perm _, hpredicted, horder _ fun _ _ => List.reverse_perm _, ?_⟩
  have hfault : (match outcome (predicted none) p with
      | .error e => decide (e = ⟨.misplaced .tr (some .wsh), 4, 7, "sh(wsh(tr("⟩)
      | .ok _ => false) = true := by decide +kernel
  split at hfault
  · next e herror => rw [herror, of_decide_eq_true hfault]
  · cases hfault

end WalletExchange.Parser
