import Mathlib.Data.List.Forall2
import Mathlib.Data.List.Perm.Basic
import WalletExchange.Proofs.Descriptor.Segwit
import WalletExchange.Proofs.Script.Multisig

/-!
# Proofs — multisignatures in a context

The keys of a multisignature are resolved in the order in which they are written, and put in order
afterwards if the function asks for it.  The order is that of serialized keys, which is total and
in which only a key itself ties with it, so nothing is left of the order in which they were written,
not even where some key stands for none.  The script tells the threshold and the keys in turn.

Main statements:

* `Multisig.sorted_of_perm` — the order of the keys of a sorted multisignature does not matter.
* `Node.script_of_reordered` — nor does it in a multisignature that is part of a tree.
* `Multisig.script_commits` — a script is that of one threshold and one list of keys.
-/

namespace WalletExchange

/-! ### The order of keys -/

theorem Bytes.le_iff {a b : Bytes} : le a b = true ↔ a ≤ b := by
  induction a generalizing b with
  | nil => simp [le]
  | cons x a ih =>
      cases b with
      | nil => simp [le]
      | cons y b =>
          rw [le, List.cons_le_cons_iff, ← ih]
          simp

namespace PublicKey

variable {keys keys' sorted : List PublicKey}

/-- The serialized forms of the keys are in ascending order. -/
def Ascending (keys : List PublicKey) : Prop := keys.Pairwise fun a b => a.toBytes ≤ b.toBytes

instance : DecidablePred Ascending := fun keys =>
  inferInstanceAs (Decidable (keys.Pairwise fun a b => a.toBytes ≤ b.toBytes))

theorem sort_perm (keys : List PublicKey) : (sort keys).Perm keys := List.mergeSort_perm keys _

theorem ascending_sort (keys : List PublicKey) : Ascending (sort keys) := by
  refine (List.pairwise_mergeSort ?_ ?_ keys).imp fun h => Bytes.le_iff.mp h
  · intro a b c hab hbc
    rw [Bytes.le_iff] at *
    exact List.le_trans hab hbc
  · intro a b
    rw [Bool.or_eq_true, Bytes.le_iff, Bytes.le_iff]
    exact List.le_total _ _

/-- Keys that tie are the same, so there is one way to put keys in order. -/
theorem Ascending.eq_of_perm (h : Ascending keys) (h' : Ascending keys') (hperm : keys.Perm keys') :
    keys = keys' :=
  hperm.eq_of_pairwise (fun _ _ _ _ hab hba => toBytes_inj.mp (List.le_antisymm hab hba)) h h'

theorem sort_eq_iff : sort keys = sorted ↔ sorted.Perm keys ∧ Ascending sorted := by
  constructor
  · rintro rfl
    exact ⟨sort_perm keys, ascending_sort keys⟩
  · rintro ⟨hperm, hsorted⟩
    exact (ascending_sort keys).eq_of_perm hsorted ((sort_perm keys).trans hperm.symm)

end PublicKey

/-! ### Resolving a list -/

namespace Resolution

variable {α β : Type}

theorem value?_bind_eq (r : Resolution α) (f : α → Resolution β) :
    (r >>= f).value? = r.value?.bind fun a => (f a).value? := by
  rw [bind_eq, value?_bind]

theorem value?_bind_pure (r : Resolution α) (f : α → β) :
    (r >>= fun a => pure (f a)).value? = r.value?.map f := by
  rw [value?_bind_eq]
  exact Option.map_eq_bind.symm

end Resolution

namespace KeyExpression

variable {c : ScriptContext} {keys keys' : List KeyExpression} {points points' : List PublicKey}

/-- The expressions stand for the public keys, one for one. -/
def StandFor (c : ScriptContext) : List KeyExpression → List PublicKey → Prop :=
  List.Forall₂ fun k p => (k.resolve c).value? = some p

theorem value?_resolveAll_cons (k : KeyExpression) (keys : List KeyExpression) :
    (resolveAll c (k :: keys)).value? =
      (k.resolve c).value?.bind fun p => (resolveAll c keys).value?.map (p :: ·) := by
  rw [resolveAll, Resolution.value?_bind_eq]
  congr
  funext p
  exact Resolution.value?_bind_pure _ _

theorem value?_resolveAll_eq_some_iff :
    (resolveAll c keys).value? = some points ↔ StandFor c keys points := by
  induction keys generalizing points with
  | nil => simp [resolveAll, StandFor, pure, eq_comm]
  | cons k keys ih =>
      rw [value?_resolveAll_cons, StandFor, List.forall₂_cons_left_iff, Option.bind_eq_some_iff]
      simp only [Option.map_eq_some_iff, ih]
      constructor
      · rintro ⟨p, hp, rest, hrest, rfl⟩
        exact ⟨p, rest, hp, hrest, rfl⟩
      · rintro ⟨p, rest, hp, hrest, rfl⟩
        exact ⟨p, hp, rest, hrest, rfl⟩

theorem value?_resolveAll_eq_none_iff :
    (resolveAll c keys).value? = none ↔ ∃ k ∈ keys, (k.resolve c).value? = none := by
  induction keys with
  | nil => simp [resolveAll, pure]
  | cons k keys ih =>
      rw [value?_resolveAll_cons]
      cases hk : (k.resolve c).value? with
      | none => simp [hk]
      | some p => simp [hk, ih]

/-- The same expressions in another order stand for the same keys in another order. -/
theorem StandFor.exists_of_perm (h : StandFor c keys points) (hperm : keys'.Perm keys) :
    ∃ points', StandFor c keys' points' ∧ points'.Perm points :=
  List.perm_comp_forall₂ hperm h

/-- Keys in another order are those of the expressions in some order. -/
theorem StandFor.exists_of_perm_points (h : StandFor c keys points) (hperm : points'.Perm points) :
    ∃ keys', keys'.Perm keys ∧ StandFor c keys' points' := by
  obtain ⟨keys', hkeys, hkeysPerm⟩ := List.perm_comp_forall₂ hperm h.flip
  exact ⟨keys', hkeysPerm, hkeys.flip⟩

end KeyExpression

/-! ### Scripts -/

namespace Multisig

open KeyExpression (StandFor)
open PublicKey (Ascending)

/-- The keys in the order in which they are in the script. -/
def ordered (m : Multisig) (points : List PublicKey) : List PublicKey :=
  if m.isSorted then PublicKey.sort points else points

theorem ordered_perm (m : Multisig) (points : List PublicKey) : (m.ordered points).Perm points := by
  unfold ordered
  split
  · exact PublicKey.sort_perm points
  · exact .refl points

theorem value?_script (m : Multisig) (c : ScriptContext) :
    ((Node.multi m).script c).value? = (KeyExpression.resolveAll c m.keys).value?.map fun points =>
      .multisig m.threshold.toInt64.toInt (m.ordered points) := by
  rw [Node.script, Multisig.script]
  exact Resolution.value?_bind_pure _ _

theorem value?_script_eq_none_iff {m : Multisig} {c : ScriptContext} :
    ((Node.multi m).script c).value? = none ↔ ∃ k ∈ m.keys, (k.resolve c).value? = none := by
  rw [value?_script, Option.map_eq_none_iff, KeyExpression.value?_resolveAll_eq_none_iff]

theorem value?_script_of_standFor {m : Multisig} {c : ScriptContext} {points : List PublicKey}
    (h : StandFor c m.keys points) :
    ((Node.multi m).script c).value? =
      some (.multisig m.threshold.toInt64.toInt (m.ordered points)) := by
  rw [value?_script, KeyExpression.value?_resolveAll_eq_some_iff.mpr h, Option.map_some]

variable {threshold : UInt64} {keys keys' : List KeyExpression} {c : ScriptContext}

theorem value?_script_sorted_of_perm (hperm : keys'.Perm keys) :
    ((Node.multi ⟨threshold, keys', true⟩).script c).value? =
      ((Node.multi ⟨threshold, keys, true⟩).script c).value? := by
  cases h : (KeyExpression.resolveAll c keys).value? with
  | none =>
      -- a key that stands for none does so in any place
      obtain ⟨k, hk, hnone⟩ := KeyExpression.value?_resolveAll_eq_none_iff.mp h
      rw [value?_script_eq_none_iff.mpr ⟨k, hperm.mem_iff.mpr hk, hnone⟩,
        value?_script_eq_none_iff.mpr ⟨k, hk, hnone⟩]
  | some points =>
      have hpoints := KeyExpression.value?_resolveAll_eq_some_iff.mp h
      obtain ⟨points', hpoints', hperm'⟩ := hpoints.exists_of_perm hperm
      have hsort : PublicKey.sort points' = PublicKey.sort points :=
        PublicKey.sort_eq_iff.mpr
          ⟨(PublicKey.sort_perm points).trans hperm'.symm, PublicKey.ascending_sort points⟩
      rw [value?_script_of_standFor hpoints', value?_script_of_standFor hpoints]
      exact congrArg (fun keys => some (Script.multisig threshold.toInt64.toInt keys)) hsort

/-- A sorted multisignature has the script of the one whose keys are written in ascending order. -/
theorem value?_script_sorted {c' : ScriptContext} {others : List KeyExpression}
    {points sorted : List PublicKey} (hpoints : StandFor c keys points)
    (hsorted : StandFor c' others sorted) (hperm : sorted.Perm points)
    (hascending : Ascending sorted) :
    ((Node.multi ⟨threshold, keys, true⟩).script c).value? =
      ((Node.multi ⟨threshold, others, false⟩).script c').value? := by
  rw [value?_script_of_standFor hpoints, value?_script_of_standFor hsorted]
  exact congrArg (fun keys => some (Script.multisig threshold.toInt64.toInt keys))
    (PublicKey.sort_eq_iff.mpr ⟨hperm, hascending⟩)

/-- The order in which the keys of a sorted multisignature are written does not matter: in every
order it has the same script, or none if some key stands for none.  The script is that of an
unsorted multisignature whose keys stand for the same public keys in ascending order, whatever
expressions and context these come from, and the keys themselves can be written in such an order. -/
theorem sorted_of_perm (hperm : keys'.Perm keys) :
    ((Node.multi ⟨threshold, keys', true⟩).script c).value? =
      ((Node.multi ⟨threshold, keys, true⟩).script c).value? ∧
    (((Node.multi ⟨threshold, keys, true⟩).script c).value? = none ↔
      ∃ k ∈ keys, (k.resolve c).value? = none) ∧
    ∀ points, StandFor c keys points →
      (∀ c' others sorted, StandFor c' others sorted → sorted.Perm points → Ascending sorted →
        ((Node.multi ⟨threshold, keys, true⟩).script c).value? =
          ((Node.multi ⟨threshold, others, false⟩).script c').value?) ∧
      ∃ others sorted, others.Perm keys ∧ StandFor c others sorted ∧ sorted.Perm points ∧
        Ascending sorted := by
  refine ⟨value?_script_sorted_of_perm hperm, value?_script_eq_none_iff, fun points hpoints => ?_⟩
  refine ⟨fun c' others sorted => value?_script_sorted hpoints, ?_⟩
  have hsort := PublicKey.sort_perm points
  obtain ⟨others, hothers, hstand⟩ := hpoints.exists_of_perm_points hsort
  exact ⟨others, PublicKey.sort points, hothers, hstand, hsort, PublicKey.ascending_sort points⟩

/-- Keys of both lengths, one of them twice and one of them given by a provider, in reverse order
and in ascending order. -/
theorem sorted_of_perm_of_provider :
    ∃ (keys keys' others : List KeyExpression) (c : ScriptContext), keys' ≠ keys ∧
      ((Node.multi ⟨2, keys, true⟩).script c).value?.isSome = true ∧
      ((Node.multi ⟨2, keys', true⟩).script c).value? =
        ((Node.multi ⟨2, keys, true⟩).script c).value? ∧
      ((Node.multi ⟨2, keys, true⟩).script c).value? =
        ((Node.multi ⟨2, others, false⟩).script c).value? := by
  let short : PublicKey := ⟨.generator, true⟩
  let long : PublicKey := ⟨.generator, false⟩
  let hd : XKey :=
    .xpub ⟨.bitcoin, 0, 0, ⟨.zero, false⟩, ⟨List.replicate 32 0, rfl⟩, .generator⟩
  let child : KeyExpression := ⟨none, .hd ⟨hd, some (.ofSteps [.single ⟨.index .zero, true⟩])⟩⟩
  let secret : PrivateKey := ⟨⟨1, by decide, by decide⟩, false, .bitcoin⟩
  let c : ScriptContext := ⟨none, .external, some fun _ => some secret, none⟩
  let keys : List KeyExpression := [⟨none, .plain long⟩, ⟨none, .plain short⟩, child,
    ⟨none, .plain short⟩]
  let others : List KeyExpression :=
    [⟨none, .plain short⟩, ⟨none, .plain short⟩, ⟨none, .plain long⟩, child]
  have hchild : (child.resolve c).value? = some long := by decide +kernel
  have hpoints : StandFor c keys [long, short, long, short] :=
    .cons rfl (.cons rfl (.cons hchild (.cons rfl .nil)))
  have hothers : StandFor c others [short, short, long, long] :=
    .cons rfl (.cons rfl (.cons rfl (.cons hchild .nil)))
  have hascending : Ascending [short, short, long, long] := by decide +kernel
  obtain ⟨hreverse, -, hsame⟩ := @sorted_of_perm 2 _ _ c keys.reverse_perm
  have hperm : [short, short, long, long].Perm [long, short, long, short] := by decide
  refine ⟨keys, keys.reverse, others, c, by decide, ?_, hreverse,
    (hsame _ hpoints).1 c others _ hothers hperm hascending⟩
  rw [value?_script_of_standFor hpoints]
  rfl

/-! ### Reading a policy back -/

/-- The threshold is between one and the number of keys, and there are not too many of them. -/
structure InBounds (m : Multisig) : Prop where
  one_le : 1 ≤ m.threshold.toNat
  le_length : m.threshold.toNat ≤ m.keys.length
  length_le : m.keys.length ≤ maxKeys

theorem toInt_threshold {threshold : UInt64} (h : threshold.toNat ≤ maxKeys) :
    threshold.toInt64.toInt = threshold.toNat :=
  BitVec.toInt_eq_toNat_of_lt (Nat.lt_of_le_of_lt (Nat.mul_le_mul_left 2 h) (by decide))

section Policy

variable {m m' : Multisig} {c c' : ScriptContext} {points points' : List PublicKey}

/-- The script is taken apart into the threshold, the keys in their order and their number, and into
nothing else that is a policy. -/
theorem InBounds.instructions?_script_iff (hm : m.InBounds) (hpoints : StandFor c m.keys points)
    {s : Script} (hs : ((Node.multi m).script c).value? = some s) {threshold count : UInt8}
    {keys : List PublicKey} :
    s.instructions? = some (Script.policy threshold count keys) ↔
      threshold.toNat = m.threshold.toNat ∧ count.toNat = m.keys.length ∧
        keys = m.ordered points := by
  have hlength : (m.ordered points).length = m.keys.length :=
    (m.ordered_perm points).length_eq.trans hpoints.length_eq.symm
  rw [value?_script_of_standFor hpoints,
    toInt_threshold (Nat.le_trans hm.le_length hm.length_le)] at hs
  cases hs
  rw [Script.instructions?_multisig_iff hm.one_le (hlength ▸ hm.le_length)
    (hlength ▸ hm.length_le), hlength]

/-- A multisignature has a script that is read back as its threshold, its keys in the order in which
they are in the script and their number, and as no other policy.  If another one has the same
script, then it has the same threshold and the same keys, and in the same order unless one of them
puts them in order. -/
theorem script_commits (hm : m.InBounds) (hm' : m'.InBounds) (hpoints : StandFor c m.keys points)
    (hpoints' : StandFor c' m'.keys points') :
    (∃ s, ((Node.multi m).script c).value? = some s ∧ ∀ threshold count keys,
      s.instructions? = some (Script.policy threshold count keys) ↔
        threshold.toNat = m.threshold.toNat ∧ count.toNat = m.keys.length ∧
          keys = m.ordered points) ∧
    (((Node.multi m).script c).value? = ((Node.multi m').script c').value? →
      m.threshold = m'.threshold ∧ points.Perm points' ∧
        (m.isSorted = false → m'.isSorted = false → points = points')) := by
  have hs := value?_script_of_standFor hpoints
  refine ⟨⟨_, hs, fun _ _ _ => hm.instructions?_script_iff hpoints hs⟩, fun heq => ?_⟩
  have hbyte : ∀ {n : Nat}, n ≤ m.keys.length → (UInt8.ofNat n).toNat = n := by
    intro n hn
    have hmax : n ≤ maxKeys := Nat.le_trans hn hm.length_le
    exact UInt8.toNat_ofNat_of_lt (Nat.lt_of_le_of_lt hmax (by decide))
  -- what is read from the script is the policy of both
  have hread := (hm.instructions?_script_iff hpoints hs).mpr
    ⟨hbyte hm.le_length, hbyte (Nat.le_refl _), rfl⟩
  obtain ⟨hthreshold, -, hkeys⟩ :=
    (hm'.instructions?_script_iff hpoints' (heq.symm.trans hs)).mp hread
  refine ⟨UInt64.toNat_inj.mp ((hbyte hm.le_length).symm.trans hthreshold), ?_, ?_⟩
  · exact (m.ordered_perm points).symm.trans (hkeys ▸ m'.ordered_perm points')
  · intro hunsorted hunsorted'
    rwa [ordered, ordered, hunsorted, hunsorted'] at hkeys

/-- Seventeen signatures by eighteen keys, and the same with the keys the other way round. -/
theorem script_commits_of_reverse :
    ∃ (m m' : Multisig) (c : ScriptContext), m'.keys = m.keys.reverse ∧
      (∃ s points, ((Node.multi m).script c).value? = some s ∧
        s.instructions? = some (Script.policy 17 18 points)) ∧
      ((Node.multi m).script c).value? ≠ ((Node.multi m').script c).value? := by
  let points : List PublicKey :=
    List.replicate 9 ⟨.generator, true⟩ ++ List.replicate 9 ⟨.generator, false⟩
  let keys : List KeyExpression := points.map fun p => ⟨none, .plain p⟩
  let c : ScriptContext := ⟨none, .external, none, none⟩
  let m : Multisig := ⟨17, keys, false⟩
  let m' : Multisig := ⟨17, keys.reverse, false⟩
  have hpoints : StandFor c m.keys points := KeyExpression.value?_resolveAll_eq_some_iff.mp rfl
  have hpoints' : StandFor c m'.keys points.reverse :=
    KeyExpression.value?_resolveAll_eq_some_iff.mp rfl
  have hbounds : m.InBounds ∧ m'.InBounds := ⟨⟨by decide, by decide, by decide⟩,
    ⟨by decide, by decide, by decide⟩⟩
  obtain ⟨⟨s, hs, hread⟩, hsame⟩ := script_commits hbounds.1 hbounds.2 hpoints hpoints'
  refine ⟨m, m', c, rfl, ⟨s, points, hs, (hread 17 18 points).mpr ⟨rfl, rfl, rfl⟩⟩, fun heq => ?_⟩
  exact absurd ((hsame heq).2.2 rfl rfl) (by decide)

end Policy

end Multisig

/-! ### Trees -/

namespace Node

/-- The trees are the same but for the order of the keys of sorted multisignatures. -/
inductive Reordered : Node → Node → Prop where
  | refl (n : Node) : Reordered n n
  | multi {threshold : UInt64} {keys keys' : List KeyExpression} (perm : keys'.Perm keys) :
      Reordered (.multi ⟨threshold, keys', true⟩) (.multi ⟨threshold, keys, true⟩)
  | wsh {n n' : Node} (inner : Reordered n' n) : Reordered (.wsh n') (.wsh n)
  | sh {n n' : Node} (inner : Reordered n' n) : Reordered (.sh n') (.sh n)

theorem Reordered.keys_perm {n n' : Node} (h : Reordered n' n) : n'.keys.Perm n.keys := by
  induction h with
  | refl n => exact .refl _
  | multi perm => exact perm
  | wsh _ ih | sh _ ih => exact ih

/-- The order in which the keys of a sorted multisignature are written does not matter either where
it is in a witness or in a digest. -/
theorem script_of_reordered {n n' : Node} {c : ScriptContext} (h : Reordered n' n) :
    (n'.script c).value? = (n.script c).value? := by
  induction h with
  | refl n => rfl
  | multi perm => exact Multisig.value?_script_sorted_of_perm perm
  | @wsh n n' inner ih =>
      have huncompressed : n'.hasUncompressedKey = n.hasUncompressedKey := inner.keys_perm.any_eq
      rw [script, script, huncompressed]
      split
      · rfl
      · rw [Resolution.value?_bind_pure, Resolution.value?_bind_pure, ih]
  | sh inner ih =>
      rw [script, script, Resolution.value?_bind_pure, Resolution.value?_bind_pure, ih]

end Node

end WalletExchange
