import WalletExchange.Proofs.Key.Exchange
import WalletExchange.Proofs.Path.Fixed

/-!
# Proofs — the place of a key that arrives

`KeyExpression.exchanged` says what arrives in terms of the origin that is written, which is not the
origin of the key: the depth of the key is recorded in it, and a key without an origin is written
with one that holds its child number.  None of this is left when the origin is read.  It is the
origin of the key itself that is kept, with the depth that its own steps tell, and the child number
is that of its last step; a key without an origin keeps the child number it had, unless it is at
depth zero.

Main statements:

* `KeyExpression.exchangedHd_eq` — what arrives of an extended key, in terms of the key.
* `KeyExpression.exchangedHd_eq_placed` — the same of a key that was read from somewhere: nothing
  changes but its place in the tree and its origin.
-/

namespace WalletExchange

namespace XKey

variable {k : XKey} {parent : Fingerprint} {child : ChildNumber}

/-- The extended key in another place of the tree. -/
def placed (parent : Fingerprint) (child : ChildNumber) : XKey → XKey
  | .xpub k => .xpub { k with parent, child }
  | .xprv k => .xprv { k with parent, child }

/-- A key on a network that is not lost is only put in another place. -/
theorem relocated_eq_placed (h : k.network.exchanged = k.network) (parent : Fingerprint)
    (child : ChildNumber) : k.relocated parent child = k.placed parent child := by
  cases k with
  | xpub k => exact congrArg (fun network => XKey.xpub { k with network, parent, child }) h
  | xprv k => exact congrArg (fun network => XKey.xprv { k with network, parent, child }) h

theorem placed_eq_self_iff : k.placed parent child = k ↔ parent = k.parent ∧ child = k.child := by
  constructor
  · intro h
    rw [← h]
    cases k <;> exact ⟨rfl, rfl⟩
  · rintro ⟨rfl, rfl⟩
    cases k <;> rfl

@[simp] theorem depth_placed (k : XKey) : (k.placed parent child).depth = k.depth := by
  cases k <;> rfl

@[simp] theorem parent_placed (k : XKey) : (k.placed parent child).parent = parent := by
  cases k <;> rfl

@[simp] theorem isPrivate_placed (k : XKey) : (k.placed parent child).isPrivate = k.isPrivate := by
  cases k <;> rfl

@[simp] theorem child_placed (k : XKey) : (k.placed parent child).child = child := by
  cases k <;> rfl

@[simp] theorem network_placed (k : XKey) : (k.placed parent child).network = k.network := by
  cases k <;> rfl

end XKey

namespace Path

variable {p : Path} {child : ChildNumber}

theorem toNat_ofNat_eq_iff {n : Nat} : (UInt8.ofNat n).toNat = n ↔ n < 256 := by
  rw [UInt8.toNat_ofNat']
  exact Nat.mod_eq_iff_lt (by decide)

/-- A depth that is the number of steps is not recorded, unless the number does not fit. -/
theorem setDepth_length (p : Path) : p.setDepth (UInt8.ofNat p.steps.length) =
    { p with explicitDepth :=
        if p.steps.length < 256 then none else some (UInt8.ofNat p.steps.length) } := by
  simp only [setDepth, toNat_ofNat_eq_iff]

/-- The path ends at a child number; without steps, at that of a master key. -/
def EndsAt (p : Path) (child : ChildNumber) : Prop :=
  (p.steps = [] ∧ child = ⟨.zero, false⟩) ∨ p.steps.getLast? = some (.ofChildNumber child)

instance (p : Path) (child : ChildNumber) : Decidable (p.EndsAt child) :=
  inferInstanceAs (Decidable (_ ∧ _ ∨ _))

theorem EndsAt.childOfOrigin_eq (h : p.EndsAt child) :
    KeyExpression.childOfOrigin (some p) = child := by
  rw [KeyExpression.childOfOrigin, Option.bind_some]
  rcases h with ⟨hnil, rfl⟩ | hlast
  · rw [hnil]
    rfl
  · rw [hlast]
    rfl

/-- A fixed path ends at the child number that is read off it. -/
theorem endsAt_iff (h : ∀ s ∈ p.steps, s.isFixed = true) :
    p.EndsAt child ↔ KeyExpression.childOfOrigin (some p) = child := by
  refine ⟨EndsAt.childOfOrigin_eq, ?_⟩
  rintro rfl
  cases hlast : p.steps.getLast? with
  | none =>
      have hnil := List.getLast?_eq_none_iff.mp hlast
      have hends : p.EndsAt ⟨.zero, false⟩ := .inl ⟨hnil, rfl⟩
      rwa [← hends.childOfOrigin_eq] at hends
  | some s =>
      obtain ⟨n, rfl⟩ := Step.isFixed_iff_exists.mp (h s (List.mem_of_getLast? hlast))
      have hends : p.EndsAt n := .inr hlast
      rwa [← hends.childOfOrigin_eq] at hends

end Path

namespace KeyExpression

variable {k : KeyExpression} {key : XKey}

/-- The child number that arrives. -/
def arrivingChild (k : KeyExpression) (key : XKey) : ChildNumber :=
  match k.origin with
  | some origin => childOfOrigin (some origin)
  | none => if key.depth = 0 then ⟨.zero, false⟩ else key.child

theorem childOfOrigin_written (k : KeyExpression) (key : XKey) :
    childOfOrigin (k.writtenOrigin? key) = k.arrivingChild key := by
  rw [writtenOrigin?, arrivingChild]
  cases k.origin with
  | some origin => rfl
  | none =>
      dsimp only
      split <;> rfl

/-- An origin that is made up for a child number is not kept, and any other one is kept as if its
depth had not been recorded. -/
theorem keptOrigin?_written (k : KeyExpression) (key : XKey) :
    keptOrigin? (k.writtenOrigin? key) = keptOrigin? k.origin := by
  rw [writtenOrigin?]
  cases k.origin with
  | some origin =>
      obtain ⟨fingerprint, steps, explicitDepth⟩ := origin
      cases fingerprint <;> rfl
  | none =>
      dsimp only
      split <;> rfl

/-- An origin with a fingerprint is kept, with a depth recorded if the number of its steps does not
fit into a byte. -/
theorem keptOrigin?_eq {origin : Option Path}
    (h : ∀ path ∈ origin, path.fingerprint.isSome = true) :
    keptOrigin? origin = origin.map fun path =>
      { path with explicitDepth :=
          if path.steps.length < 256 then none else some (UInt8.ofNat path.steps.length) } := by
  cases origin with
  | none => rfl
  | some path =>
      rw [keptOrigin?, Option.filter_some, if_pos (h path rfl), Option.map_some, Option.map_some,
        Path.setDepth_length]

/-- An origin in which no depth is recorded is kept as it is if the number of its steps fits into a
byte. -/
theorem keptOrigin?_eq_self_iff {origin : Option Path}
    (h : ∀ path ∈ origin, path.fingerprint.isSome = true)
    (hdepth : ∀ path ∈ origin, path.explicitDepth = none) :
    keptOrigin? origin = origin ↔ ∀ path ∈ origin, path.steps.length < 256 := by
  rw [keptOrigin?_eq h]
  cases origin with
  | none => simp
  | some path =>
      obtain ⟨fingerprint, steps, explicitDepth⟩ := path
      obtain rfl : explicitDepth = none := hdepth _ rfl
      simp

/-- An origin that was kept is kept as it is. -/
theorem keptOrigin?_keptOrigin? (origin : Option Path) :
    keptOrigin? (keptOrigin? origin) = keptOrigin? origin := by
  cases origin with
  | none => rfl
  | some origin =>
      obtain ⟨fingerprint, steps, explicitDepth⟩ := origin
      cases fingerprint <;> rfl

/-- What arrives of an extended key. -/
theorem exchangedHd_eq (k : KeyExpression) (key : HdKey) :
    k.exchangedHd key = ⟨keptOrigin? k.origin, .hd
      { key := key.key.relocated (k.writtenParent key) (k.arrivingChild key.key)
        children := key.children.map Path.canonical }⟩ := by
  rw [exchangedHd, keptOrigin?_written, childOfOrigin_written]

/-- What arrives of an extended key that loses neither its network nor a recorded depth. -/
theorem exchangedHd_eq_placed {key : HdKey} (hnetwork : key.key.network.exchanged = key.key.network)
    (hchildren : ∀ path ∈ key.children, path.Normal) :
    k.exchangedHd key = ⟨keptOrigin? k.origin, .hd { key with
      key := key.key.placed (k.writtenParent key) (k.arrivingChild key.key) }⟩ := by
  rw [exchangedHd_eq, XKey.relocated_eq_placed hnetwork, Path.map_canonical_eq_self hchildren]

/-- Only the layout of a bare master key has no parent. -/
theorem writtenParent_of_ne {key : HdKey} (h : key.key.depth ≠ 0 ∨ k.origin ≠ none) :
    k.writtenParent key = key.key.parent := by
  refine if_neg fun hbare => ?_
  obtain ⟨-, hmaster, horigin, -⟩ := isBareMaster_iff.mp hbare
  exact h.elim (fun hdepth => hdepth (beq_iff_eq.mp hmaster)) fun hne => hne horigin

end KeyExpression

end WalletExchange
