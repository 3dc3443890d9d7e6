import Mathlib.Data.List.Induction
import WalletExchange.Proofs.Path.Text

/-!
# Proofs — recorded depths

A depth is recorded only if it is not the number of steps at that moment.  A path is *normal* if
this still holds of it; every path is so when it is made, and a normal path is read back unchanged
from what is written of it.

A path is edited by four operations.  A step that is added at the end changes the number of steps
and leaves the recorded depth as it is, so the steps can catch up with the depth.  How many of them
there are when they do, and that no later edit has touched the depth, is all there is to it
(`Overtaken`): exactly the runs of edits in which this happens end in a path that is not normal.

Main statements:

* `Path.Made.normal` — a path is normal when it is made.
* `Path.exists_recorded` — where the recorded depth at the end of a run comes from.
* `Path.normal_run_iff` — which runs end in a normal path, and what else this decides.
-/

namespace WalletExchange

open Cbor (Value DecodeError)

namespace Path

/-! ### Paths as they are made -/

/-- The paths that constructors make and that are read. -/
inductive Made : Path → Prop where
  | ofSteps (steps : List Step) : Made (ofSteps steps)
  | fromMaster (fingerprint : Fingerprint) (steps : List Step) : Made (fromMaster fingerprint steps)
  | master : Made master
  | ofChildNumbers (numbers : List ChildNumber) : Made (ofChildNumbers numbers)
  | parsed {text : String} {p : Path} (h : ofString text = .ok p) : Made p
  | decoded {v : Value} {p : Path} (h : ofCbor? v = .ok p) : Made p
  | decodedContent {v : Value} {p : Path} (h : ofCborContent? v = .ok p) : Made p

theorem explicitDepth_of_parseSteps {fingerprint : Option Fingerprint}
    {components : List (List Char)} {p : Path} (h : parseSteps fingerprint components = .ok p) :
    p.explicitDepth = none := by
  obtain ⟨steps, -, h⟩ := bind_eq_ok_iff.mp h
  obtain ⟨_, -, ⟨⟩⟩ := bind_eq_ok_iff.mp h
  rfl

/-- A text has no place for a depth. -/
theorem explicitDepth_of_parseTrimmed {text : List Char} {p : Path}
    (h : parseTrimmed text = .ok p) : p.explicitDepth = none := by
  unfold parseTrimmed at h
  split at h
  · cases h
    rfl
  · split at h
    · exact explicitDepth_of_parseSteps h
    · dsimp only at h
      split at h
      · exact explicitDepth_of_parseSteps h
      · exact explicitDepth_of_parseSteps h

/-- A path is normal when it is made. -/
theorem Made.normal {p : Path} (h : p.Made) : p.Normal := by
  cases h with
  | ofSteps | fromMaster | master | ofChildNumbers => exact normal_of_explicitDepth_eq_none rfl
  | parsed h => exact normal_of_explicitDepth_eq_none (explicitDepth_of_parseTrimmed h)
  | decoded h => exact normal_of_ofCbor? h
  | decodedContent h => exact (of_ofCborContent? h).2

/-! ### Edits -/

/-- The operations on a path. -/
inductive Edit where
  | push (step : Step)
  | setDepth (depth : UInt8)
  | setOrigin (fingerprint : Option Fingerprint)
  | extended (other : Path)

namespace Edit

def apply : Edit → Path → Path
  | push step, p => p.push step
  | setDepth depth, p => p.setDepth depth
  | setOrigin fingerprint, p => p.setOrigin fingerprint
  | extended other, p => p.extended other

/-- The edit does not touch the recorded depth. -/
def keepsDepth : Edit → Bool
  | push _ | setOrigin _ => true
  | setDepth _ | extended _ => false

def isPush : Edit → Bool
  | push _ => true
  | setDepth _ | setOrigin _ | extended _ => false

end Edit

/-- The path after a run of edits. -/
def run (edits : List Edit) (p : Path) : Path := edits.foldl (fun p edit => edit.apply p) p

/-- The number of steps that a run of edits adds one by one. -/
def pushes (edits : List Edit) : Nat := edits.countP Edit.isPush

variable {p : Path} {edit : Edit} {edits before after : List Edit} {depth : UInt8}

theorem run_cons : run (edit :: edits) p = run edits (edit.apply p) := rfl

theorem run_append : run (before ++ after) p = run after (run before p) := List.foldl_append

theorem pushes_cons : pushes (edit :: edits) = pushes [edit] + pushes edits := by
  rw [← List.singleton_append]
  exact List.countP_append

/-- What an edit preserves that does not touch the depth. -/
theorem Edit.apply_of_keepsDepth (h : edit.keepsDepth = true) :
    (edit.apply p).explicitDepth = p.explicitDepth ∧
      (edit.apply p).steps.length = p.steps.length + pushes [edit] := by
  cases edit with
  | push step => exact ⟨rfl, List.length_append⟩
  | setOrigin fingerprint => exact ⟨rfl, rfl⟩
  | setDepth depth => cases h
  | extended other => cases h

/-- What a run of such edits preserves. -/
theorem run_of_keepsDepth (h : ∀ edit ∈ edits, edit.keepsDepth = true) :
    (run edits p).explicitDepth = p.explicitDepth ∧
      (run edits p).steps.length = p.steps.length + pushes edits := by
  induction edits generalizing p with
  | nil => exact ⟨rfl, rfl⟩
  | cons edit edits ih =>
      obtain ⟨hedit, hedits⟩ := List.forall_mem_cons.mp h
      obtain ⟨hdepth, hlength⟩ := Edit.apply_of_keepsDepth (p := p) hedit
      obtain ⟨hdepth', hlength'⟩ := ih (p := edit.apply p) hedits
      refine ⟨hdepth'.trans hdepth, ?_⟩
      rw [run_cons, hlength', hlength, Nat.add_assoc, ← pushes_cons]

/-- Where the recorded depth at the end of a run comes from: the path had it from the start, or it
was set, and no later edit has touched it. -/
theorem exists_recorded (h : (run edits p).explicitDepth = some depth) :
    (p.explicitDepth = some depth ∧ ∀ edit ∈ edits, edit.keepsDepth = true) ∨
      ∃ before after, edits = before ++ .setDepth depth :: after ∧
        (∀ edit ∈ after, edit.keepsDepth = true) ∧
        depth.toNat ≠ (run before p).steps.length := by
  -- on the last edit: it keeps the depth, or it is where the depth comes from
  induction edits using List.reverseRecOn with
  | nil => exact .inl ⟨h, List.forall_mem_nil _⟩
  | append_singleton edits edit ih =>
      rw [run_append] at h
      cases hkeeps : edit.keepsDepth with
      | true =>
          have hlast : ∀ e ∈ [edit], e.keepsDepth = true := List.forall_mem_singleton.mpr hkeeps
          rw [(run_of_keepsDepth hlast).1] at h
          rcases ih h with ⟨hown, hall⟩ | ⟨before, after, rfl, hall, hne⟩
          · exact .inl ⟨hown, List.forall_mem_append.mpr ⟨hall, hlast⟩⟩
          · exact .inr ⟨before, after ++ [edit], by simp,
              List.forall_mem_append.mpr ⟨hall, hlast⟩, hne⟩
      | false =>
          cases edit with
          | push step => cases hkeeps
          | setOrigin fingerprint => cases hkeeps
          | extended other => cases h
          | setDepth set =>
              change (if set.toNat = (run edits p).steps.length then none else some set) =
                some depth at h
              split at h
              · cases h
              · next hne =>
                cases h
                exact .inr ⟨edits, [], rfl, List.forall_mem_nil _, hne⟩

/-! ### Depths that are caught up with -/

/-- The edits add steps, without touching the recorded depth, until from a given number of steps the
depth is reached. -/
structure CatchUp (depth : UInt8) (length : Nat) (edits : List Edit) : Prop where
  keepsDepth : ∀ edit ∈ edits, edit.keepsDepth = true
  pushes_pos : 0 < pushes edits
  depth_eq : depth.toNat = length + pushes edits

/-- A run of edits ends where the steps have caught up with a recorded depth: the one that the path
had from the start, or one that an edit has set. -/
inductive Overtaken (p : Path) : List Edit → Prop where
  | own {depth : UInt8} {edits : List Edit} (hdepth : p.explicitDepth = some depth)
      (h : CatchUp depth p.steps.length edits) : Overtaken p edits
  | set {depth : UInt8} {before after : List Edit}
      (h : CatchUp depth (run before p).steps.length after) :
      Overtaken p (before ++ .setDepth depth :: after)

/-- Steps that have caught up with a depth are as many as it says. -/
theorem CatchUp.not_normal (h : CatchUp depth p.steps.length edits)
    (hdepth : p.explicitDepth = some depth) : ¬ (run edits p).Normal := by
  obtain ⟨hkept, hlength⟩ := run_of_keepsDepth (p := p) h.keepsDepth
  exact not_normal_iff.mpr ⟨depth, hkept.trans hdepth, h.depth_eq.trans hlength.symm⟩

/-- A depth that the number of steps has become was caught up with. -/
theorem catchUp_of_length (hkeeps : ∀ edit ∈ edits, edit.keepsDepth = true)
    (hne : depth.toNat ≠ p.steps.length) (hlength : depth.toNat = (run edits p).steps.length) :
    CatchUp depth p.steps.length edits := by
  rw [(run_of_keepsDepth hkeeps).2] at hlength
  exact ⟨hkeeps, by omega, hlength⟩

/-- From a normal path, the runs that do not end in a normal path. -/
theorem not_normal_run_iff (hp : p.Normal) : ¬ (run edits p).Normal ↔ Overtaken p edits := by
  constructor
  · intro h
    obtain ⟨depth, hdepth, hlength⟩ := not_normal_iff.mp h
    rcases exists_recorded hdepth with ⟨hown, hkeeps⟩ | ⟨before, after, rfl, hkeeps, hne⟩
    · exact .own hown (catchUp_of_length hkeeps (hp depth hown) hlength)
    · rw [run_append] at hlength
      exact .set (catchUp_of_length (p := (run before p).setDepth depth) hkeeps hne hlength)
  · intro h
    cases h with
    | own hdepth h => exact h.not_normal hdepth
    | @set depth before after h =>
        have hne : depth.toNat ≠ (run before p).steps.length := by
          have := h.pushes_pos
          have := h.depth_eq
          omega
        rw [run_append]
        exact CatchUp.not_normal (p := (run before p).setDepth depth) h (if_neg hne)

/-! ### What a normal path is good for -/

/-- The depth that a reader finds in the map of the path. -/
def writtenDepth? (p : Path) : Except DecodeError (Option UInt8) := do
  (← p.toCborContent.asFields).optional 3 depthOfCbor?

theorem writtenDepth?_eq (p : Path) : p.writtenDepth? = .ok p.explicitDepth := p.optional_depth

/-- From a path as it was made, a run of edits ends in a normal path unless the steps have caught up
with a recorded depth.  If they have not, a path that passes the check is read back unchanged; if
they have, it is not, and the number of steps is written as its depth. -/
theorem normal_run_iff (hp : p.Made) (edits : List Edit) :
    ((run edits p).Normal ↔ ¬ Overtaken p edits) ∧
    ((run edits p).check .lastStepWildcard = .ok () → (∀ s ∈ (run edits p).steps, s.Valid) →
      (ofCbor? (run edits p).toCbor = .ok (run edits p) ↔ ¬ Overtaken p edits)) ∧
    ((∃ depth, (run edits p).writtenDepth? = .ok (some depth) ∧
      depth.toNat = (run edits p).steps.length) ↔ Overtaken p edits) := by
  have hnot : ¬ (run edits p).Normal ↔ Overtaken p edits := not_normal_run_iff hp.normal
  have hnormal : (run edits p).Normal ↔ ¬ Overtaken p edits := by rw [← hnot, Classical.not_not]
  refine ⟨hnormal, fun hcheck hsteps => ?_, ?_⟩
  · rw [ofCbor?_toCbor_iff, eq_comm (a := run edits p), canonical_eq_iff, hnormal]
    exact and_iff_right (valid_iff.mpr ⟨hcheck, Step.forall_valid_iff.mp hsteps⟩)
  · rw [← hnot, not_normal_iff]
    simp only [writtenDepth?_eq, Except.ok.injEq]

/-- Two steps do not catch up with a depth of three. -/
theorem normal_run_of_two_pushes :
    let edits := [.setDepth 3, .push (.single (.normal .zero)), .push (.single (.normal .one))]
    master.Made ∧ (run edits master).check .lastStepWildcard = .ok () ∧
      (∀ s ∈ (run edits master).steps, s.Valid) ∧ ¬ Overtaken master edits ∧
      ofCbor? (run edits master).toCbor = .ok (run edits master) := by
  intro edits
  have hcheck : (run edits master).check .lastStepWildcard = .ok () := rfl
  have hsteps : ∀ s ∈ (run edits master).steps, s.Valid := by decide
  obtain ⟨hnormal, hread, -⟩ := normal_run_iff .master edits
  have hnot : ¬ Overtaken master edits := hnormal.mp (by decide)
  exact ⟨.master, hcheck, hsteps, hnot, (hread hcheck hsteps).mpr hnot⟩

/-- One step catches up with a depth of one, and the path is not read back as it was. -/
theorem not_normal_run_of_push :
    let p := run [.setDepth 1, .push (.single (.normal .zero))] master
    p.check .lastStepWildcard = .ok () ∧ (∀ s ∈ p.steps, s.Valid) ∧ ¬ p.Normal ∧
      p.writtenDepth? = .ok (some 1) ∧ ofCbor? p.toCbor ≠ .ok p := by
  intro p
  have hnormal : ¬ p.Normal := by decide
  refine ⟨rfl, by decide, hnormal, rfl, ?_⟩
  intro hread
  obtain ⟨-, hcanonical⟩ := ofCbor?_toCbor_iff.mp hread
  exact hnormal (canonical_eq_iff.mp hcanonical.symm)

end Path

end WalletExchange
