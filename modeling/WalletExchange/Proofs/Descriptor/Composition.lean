import WalletExchange.Proofs.Descriptor.Walk

/-!
# Proofs — properties of walks by composition

The parsers of numbers, paths, keys and arguments are put together from a few walks: a result, a
failure, a look at the next token, a step over it.  A property that these have, and that sequences,
repetitions and transactions keep, is a property of every one of these parsers.
`Compositional P` says that `P` is such a property, and the lemmas follow the parsers from the mark
to the argument of a script function.  These parsers fail with faults of tokens only, so `P` is
asked of no other failure.

The argument of a function is another function for some kinds, so the last lemma asks for `P` of
whatever reads that one.

Main statement:

* `Compositional.argument` — from the parts to the argument of a script function.
-/

namespace WalletExchange

/-- The fault is one of the tokens of a text, and not of its characters, of its checksum or of a
caller. -/
def ParseFault.IsOfTokens : ParseFault → Prop
  | .lexical _ | .noChecksum | .wrongChecksum .. | .note _ => False
  | _ => True

namespace Parser

/-- A property of walks that holds of the simplest ones and is kept where walks are put together. -/
structure Compositional (P : ∀ {α : Type}, ParserM α → Prop) : Prop where
  result : ∀ {α : Type} (a : α), P (pure a : ParserM α)
  failure : ∀ {α : Type} {fault : ParseFault}, fault.IsOfTokens → P (fail fault : ParserM α)
  look : P peek?
  take : ∀ {α : Type} (read : TokenKind → Option α), P (takeIf? read)
  sequence : ∀ {α β : Type} {m : ParserM α} {f : α → ParserM β}, P m → (∀ a, P (f a)) → P (m >>= f)
  repetition : ∀ {α : Type} {item : ParserM (Option α)}, P item → P (many item)
  attempt : ∀ {α : Type} {m : ParserM (Option α)}, P m → P (transaction m)

/-- Stepping over the data of a script that is well formed is stepping over any token. -/
theorem expectRawScript_eq : expectRawScript = peek? >>= fun next => match next with
    | some (.data bytes) =>
      if Script.isWellFormed ⟨bytes⟩ then takeIf? some >>= fun _ => pure ⟨bytes⟩
      else fail .invalidScript
    | _ => fail .expectedRawScript := by
  funext p
  cases hhead : p.rest.head? with
  | none => rw [expectRawScript, bind_of_ok peek?_eq, bind_of_ok peek?_eq, hhead]
  | some kind =>
      obtain ⟨more, hmore⟩ := List.head?_eq_some_iff.mp hhead
      rw [expectRawScript, bind_of_ok peek?_eq, bind_of_ok peek?_eq, hhead]
      cases kind with
      | keyword | int | wif | hdKey | address | mark => rfl
      | data bytes =>
          cases hwell : Script.isWellFormed ⟨bytes⟩ with
          | false => simp only [hwell]; rfl
          | true =>
              simp only [hwell, if_true]
              rw [bind_of_ok (takeIf?_of_rest hmore rfl)]
              rfl

namespace Compositional

variable {P : ∀ {α : Type}, ParserM α → Prop} (hP : Compositional P)

include hP

/-! ### Tokens -/

/-- What has to follow is what may follow, or a failure. -/
theorem expected {α : Type} {m : ParserM (Option α)} {f : Option α → ParserM α} {fault : ParseFault}
    (hm : P m) (hsome : ∀ a, f (some a) = pure a) (hnone : f none = fail fault)
    (hfault : fault.IsOfTokens) : P (m >>= f) := by
  refine hP.sequence hm fun result => ?_
  cases result with
  | none => exact hnone ▸ hP.failure hfault
  | some a => exact hsome a ▸ hP.result a

/-- What comes after a check fails where the check does. -/
theorem checked {α : Type} {fault : ParseFault} {c : Prop} [Decidable c] {f : Unit → ParserM α}
    (hf : P (f ())) (hfault : fault.IsOfTokens) : P (if c then fail fault >>= f else f ()) := by
  split
  · exact hP.sequence (hP.failure hfault) fun _ => hf
  · exact hf

theorem accept (m : Mark) : P (accept m) := hP.sequence (hP.take _) fun _ => hP.result _

theorem expect (m : Mark) : P (expect m) := by
  refine hP.sequence (hP.accept m) fun accepted => ?_
  cases accepted with
  | true => exact hP.result ()
  | false => exact hP.failure trivial

theorem expectInt : P expectInt := hP.expected (hP.take _) (fun _ => rfl) rfl trivial

theorem expectFingerprint : P expectFingerprint :=
  hP.expected (hP.take _) (fun _ => rfl) rfl trivial

theorem expectAddress : P expectAddress := hP.expected (hP.take _) (fun _ => rfl) rfl trivial

theorem expectRawScript : P expectRawScript := by
  rw [expectRawScript_eq]
  refine hP.sequence hP.look fun next => ?_
  split
  · split
    · exact hP.sequence (hP.take _) fun _ => hP.result _
    · exact hP.failure trivial
  · exact hP.failure trivial

/-! ### Paths -/

theorem liftPath {α : Type} (result : Except PathError α) : P (liftPath result) := by
  cases result with
  | ok a => exact hP.result a
  | error cause => exact hP.failure trivial

theorem indexSpec? (fixed : Bool) : P (indexSpec? fixed) := by
  refine hP.sequence (hP.accept .star) fun starred => ?_
  cases starred with
  | false => exact hP.sequence (hP.take _) fun _ => hP.result _
  | true =>
      rw [if_pos rfl]
      exact hP.checked (hP.result _) trivial

theorem expectSingleStep (fixed : Bool) : P (expectSingleStep fixed) := by
  refine hP.sequence (hP.indexSpec? fixed) fun result => ?_
  cases result with
  | none => exact hP.failure trivial
  | some spec => exact hP.sequence (hP.accept .hardened) fun _ => hP.result _

theorem pair? : P pair? := by
  refine hP.sequence (hP.accept .openAngle) fun opened => ?_
  cases opened with
  | false => exact hP.result none
  | true =>
      exact hP.sequence (hP.expectSingleStep true) fun _ =>
        hP.sequence (hP.expect .semicolon) fun _ =>
        hP.sequence (hP.expectSingleStep true) fun _ =>
        hP.sequence (hP.expect .closeAngle) fun _ =>
        hP.sequence (hP.liftPath _) fun _ => hP.result _

theorem step? (fixed : Bool) : P (step? fixed) := by
  refine hP.sequence (hP.accept .slash) fun begun => ?_
  cases begun with
  | false => exact hP.result none
  | true =>
      refine hP.sequence hP.pair? fun result => ?_
      cases result with
      | none => exact hP.sequence (hP.expectSingleStep fixed) fun _ => hP.result _
      | some p => exact hP.checked (hP.result _) trivial

theorem steps (fixed : Bool) : P (steps fixed) :=
  hP.sequence (hP.repetition (hP.step? fixed)) fun _ =>
    hP.sequence (hP.liftPath _) fun _ => hP.result _

/-! ### Keys -/

theorem origin? : P origin? := by
  refine hP.sequence (hP.accept .openBracket) fun opened => ?_
  cases opened with
  | false => exact hP.result none
  | true =>
      exact hP.sequence hP.expectFingerprint fun _ =>
        hP.sequence (hP.steps true) fun _ =>
        hP.sequence (hP.expect .closeBracket) fun _ => hP.result _

theorem children? : P children? := hP.sequence (hP.steps false) fun _ => hP.result _

theorem material? (uncompressed : Bool) (kind : TokenKind) : P (material? uncompressed kind) := by
  cases kind with
  | data | wif | keyword | int | address | mark => exact hP.result _
  | hdKey => exact hP.sequence hP.children? fun _ => hP.result _

theorem key? (uncompressed : Bool) : P (key? uncompressed) := by
  refine hP.attempt (hP.sequence hP.origin? fun origin =>
    hP.sequence (hP.take some) fun result => ?_)
  cases result with
  | none => exact hP.result none
  | some kind => exact hP.sequence (hP.material? uncompressed kind) fun _ => hP.result _

theorem expectKey (uncompressed : Bool) : P (expectKey uncompressed) :=
  hP.expected (hP.key? uncompressed) (fun _ => rfl) rfl trivial

theorem listedKey? : P listedKey? := by
  refine hP.sequence (hP.accept .comma) fun listed => ?_
  cases listed with
  | false => exact hP.result none
  | true => exact hP.sequence (hP.expectKey true) fun _ => hP.result _

theorem expectKeys : P expectKeys :=
  hP.sequence (hP.repetition hP.listedKey?) fun _ => hP.checked (hP.result _) trivial

/-! ### Arguments -/

theorem expectMultisig (sorted : Bool) : P (expectMultisig sorted) :=
  hP.sequence hP.expectInt fun _ => hP.sequence hP.expectKeys fun _ =>
    hP.checked (hP.checked (hP.result _) trivial) trivial

/-- The argument of a function, where the functions that it can be have the property. -/
theorem argument {kind : NodeKind} (keyword : Keyword) {inner : kind.nests = true → ParserM Node}
    (hinner : ∀ nests, P (inner nests)) : P (argument kind keyword inner) := by
  cases kind with
  | raw => exact hP.sequence hP.expectRawScript fun _ => hP.result _
  | key f => exact hP.sequence (hP.expectKey _) fun _ => hP.result _
  | multi => exact hP.sequence (hP.expectMultisig _) fun _ => hP.result _
  | wsh | sh => exact hP.sequence (hinner rfl) fun _ => hP.result _
  | addr => exact hP.sequence hP.expectAddress fun _ => hP.result _

end Compositional

end Parser

end WalletExchange
