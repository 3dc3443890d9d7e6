import WalletExchange.Account.Bundle
import WalletExchange.Proofs.Account.Request
import WalletExchange.Proofs.Descriptor.Exchange

/-!
# Proofs — entries that say nothing

Most entries of a map may be absent.  For some of them the reader has a value that it takes then:
Bitcoin and the main network, use information for these, `false` for the flags of master and private
keys, `true` for those of compressed and derivable ones, zero for the fingerprint of a parent, and
the number of steps for a depth.  An entry that reads as this value is *standard* and might as well
be left out.  There is one relation for each kind of map, beside the lemma that its reader takes no
notice of a standard entry; that for requests stands with their other lemmas.

An origin, children, the fingerprint of a path and the type of an address have no such value: a map
without the entry stands for something that has none of them.

Main statement:

* `Cbor.readAlike_insert` — no reader takes notice of a standard entry.
-/

namespace WalletExchange

open Cbor (Value Fields)
open Cbor.Fields (find?_insert_of_ne getOr_insert)

variable {before after fields other : Fields} {key v : Value}

/-! ### Use information -/

/-- In the map of use information, the entry says what is meant where it is absent. -/
inductive UseInfo.StandardEntry : Value → Value → Prop where
  | asset {v : Value} (h : (do Asset.ofUInt64? (← v.asUInt64)) = .ok .btc) :
      StandardEntry (.unsigned 1) v
  | network {v : Value} (h : (do Network.ofUInt64? (← v.asUInt64)) = .ok .mainnet) :
      StandardEntry (.unsigned 2) v

theorem UseInfo.ofCborContent?_insert (h : StandardEntry key v)
    (hkey : key ∉ (before ++ after).map Prod.fst) :
    ofCborContent? (.map (before ++ (key, v) :: after)) =
      ofCborContent? (.map (before ++ after)) := by
  cases h with
  | asset h | network h =>
      simp only [ofCborContent?, Value.asFields, ok_bind]
      rw [getOr_insert hkey (by simp [h]), getOr_insert hkey (by simp [h])]

/-! ### Paths -/

/-- In the map of a path, the entry says what is meant where it is absent: a depth that is the
number of steps, each of which takes two places. -/
inductive Path.StandardEntry (fields : Fields) : Value → Value → Prop where
  | depth {places : List Value} {v : Value} {depth : UInt8}
      (hplaces : fields.find? 1 = some (.array places)) (h : depthOfCbor? v = .ok depth)
      (hlength : places.length = 2 * depth.toNat) : StandardEntry fields (.unsigned 3) v

/-- A last place without another one beside it is not read. -/
theorem Step.length_of_listOfCbor? {places : List Value} {steps : List Step}
    (h : listOfCbor? places = .ok steps) : steps.length = places.length / 2 := by
  induction places using listOfCbor?.induct generalizing steps with
  | case1 first second rest ih =>
      rw [listOfCbor?] at h
      obtain ⟨step, -, h⟩ := bind_eq_ok_iff.mp h
      obtain ⟨steps, hsteps, ⟨⟩⟩ := bind_eq_ok_iff.mp h
      simp only [List.length_cons, ih hsteps]
      omega
  | case2 places hplaces =>
      rw [listOfCbor?.eq_def] at h
      split at h
      · next first second rest => exact absurd rfl (hplaces first second rest)
      · cases h
        rcases places with _ | ⟨first, _ | ⟨second, rest⟩⟩
        · simp
        · simp
        · exact absurd rfl (hplaces first second rest)

theorem Path.ofCborContent?_insert (h : StandardEntry (before ++ (key, v) :: after) key v)
    (hkey : key ∉ (before ++ after).map Prod.fst) :
    ofCborContent? (.map (before ++ (key, v) :: after)) =
      ofCborContent? (.map (before ++ after)) := by
  obtain @⟨places, _, depth, hplaces, hdepth, hlength⟩ := h
  have hwith : Fields.optional (before ++ (.unsigned 3, v) :: after) 3 depthOfCbor? =
      .ok (some depth) := by
    rw [Fields.optional, Fields.find?_insert_self hkey]
    simp [hdepth, Except.map]
  have hwithout : Fields.optional (before ++ after) 3 depthOfCbor? = .ok none := by
    rw [Fields.optional, Fields.find?_eq_none_of_notMem hkey]
  have hother {n : UInt64} (hn : 3 ≠ n) :
      Fields.find? (before ++ (.unsigned 3, v) :: after) n = Fields.find? (before ++ after) n :=
    find?_insert_of_ne hn
  rw [hother (by decide)] at hplaces
  simp only [ofCborContent?, Value.asFields, ok_bind, Fields.require, hother (n := 1) (by decide),
    hwith, hwithout, hplaces]
  rw [Fields.optional, Fields.optional, hother (by decide)]
  cases hsteps : stepsOfCbor? (.array places) with
  | error e => rfl
  | ok steps =>
      have hread : Step.listOfCbor? places = .ok steps := by
        rw [← hsteps]
        exact (if_pos (by omega)).symm
      have hlength : depth.toNat = steps.length := by
        rw [Step.length_of_listOfCbor? hread]
        omega
      simp only [ok_bind, setDepth, if_pos hlength]

/-! ### Addresses -/

/-- In the map of an address, the entry says what is meant where it is absent. -/
inductive Address.StandardEntry : Value → Value → Prop where
  | useInfo {v : Value} (h : UseInfo.ofCbor? v = .ok .standard) : StandardEntry (.unsigned 1) v

theorem Address.ofCborContent?_insert (h : StandardEntry key v)
    (hkey : key ∉ (before ++ after).map Prod.fst) :
    ofCborContent? (.map (before ++ (key, v) :: after)) =
      ofCborContent? (.map (before ++ after)) := by
  obtain @⟨_, h⟩ := h
  simp only [ofCborContent?, Value.asFields, ok_bind, UseInfo.ofField?, Fields.require,
    Fields.optional]
  rw [getOr_insert hkey fun _ => h, find?_insert_of_ne (by decide),
    find?_insert_of_ne (by decide)]

/-! ### Keys -/

namespace KeyExpression

/-- In the map of a plain key, the entry says what is meant where it is absent. -/
inductive EcStandardEntry : Value → Value → Prop where
  | isPrivate : EcStandardEntry (.unsigned 2) (.bool false)
  | useInfo {v : Value} (h : UseInfo.ofCbor? v = .ok .standard) : EcStandardEntry (.unsigned 4) v
  | isCompressed : EcStandardEntry (.unsigned 5) (.bool true)

/-- In the map of an extended key, the entry says what is meant where it is absent. -/
inductive HdStandardEntry : Value → Value → Prop where
  | isMaster : HdStandardEntry (.unsigned 1) (.bool false)
  | isPrivate : HdStandardEntry (.unsigned 2) (.bool false)
  | useInfo {v : Value} (h : UseInfo.ofCbor? v = .ok .standard) : HdStandardEntry (.unsigned 5) v
  | parent {v : Value} (h : v.asUInt32 = .ok 0) : HdStandardEntry (.unsigned 8) v

/-- The reader of plain keys looks at four keys, three of them with a default. -/
theorem ecOfCborContent?_congr
    (hprivate : fields.getOr 2 Value.asBool false = other.getOr 2 Value.asBool false)
    (hdata : fields.find? 3 = other.find? 3)
    (huse : UseInfo.ofField? fields 4 = UseInfo.ofField? other 4)
    (hcompressed : fields.getOr 5 Value.asBool true = other.getOr 5 Value.asBool true) :
    ecOfCborContent? (.map fields) = ecOfCborContent? (.map other) := by
  simp only [ecOfCborContent?, Value.asFields, ok_bind, Fields.require, hprivate, hdata, huse,
    hcompressed]

/-- The reader of extended keys looks at eight keys, four of them with a default. -/
theorem hdOfCborContent?_congr
    (hmaster : fields.getOr 1 Value.asBool false = other.getOr 1 Value.asBool false)
    (hprivate : fields.getOr 2 Value.asBool false = other.getOr 2 Value.asBool false)
    (hfind : ∀ n ∈ [3, 4, 6, 7], fields.find? n = other.find? n)
    (huse : UseInfo.ofField? fields 5 = UseInfo.ofField? other 5)
    (hparent : fields.getOr 8 Value.asUInt32 0 = other.getOr 8 Value.asUInt32 0) :
    hdOfCborContent? (.map fields) = hdOfCborContent? (.map other) := by
  simp only [List.forall_mem_cons] at hfind
  obtain ⟨hdata, hchain, horigin, hchildren, -⟩ := hfind
  simp only [hdOfCborContent?, Value.asFields, ok_bind, Fields.require, Fields.optional, hmaster,
    hprivate, hdata, hchain, huse, horigin, hchildren, hparent]

theorem ecOfCborContent?_insert (h : EcStandardEntry key v)
    (hkey : key ∉ (before ++ after).map Prod.fst) :
    ecOfCborContent? (.map (before ++ (key, v) :: after)) =
      ecOfCborContent? (.map (before ++ after)) := by
  cases h with
  | isPrivate | isCompressed =>
      exact ecOfCborContent?_congr (getOr_insert hkey (by simp [Value.asBool]))
        (find?_insert_of_ne (by decide)) (getOr_insert hkey (by simp))
        (getOr_insert hkey (by simp [Value.asBool]))
  | useInfo h =>
      exact ecOfCborContent?_congr (getOr_insert hkey (by simp))
        (find?_insert_of_ne (by decide)) (getOr_insert hkey fun _ => h)
        (getOr_insert hkey (by simp))

theorem hdOfCborContent?_insert (h : HdStandardEntry key v)
    (hkey : key ∉ (before ++ after).map Prod.fst) :
    hdOfCborContent? (.map (before ++ (key, v) :: after)) =
      hdOfCborContent? (.map (before ++ after)) := by
  have hfind {k : UInt64} (hk : k ∉ ([3, 4, 6, 7] : List UInt64)) : ∀ n ∈ [3, 4, 6, 7],
      Fields.find? (before ++ (.unsigned k, v) :: after) n = Fields.find? (before ++ after) n :=
    fun n hn => find?_insert_of_ne fun heq => hk (heq ▸ hn)
  cases h with
  | isMaster | isPrivate =>
      exact hdOfCborContent?_congr (getOr_insert hkey (by simp [Value.asBool]))
        (getOr_insert hkey (by simp [Value.asBool])) (hfind (by decide))
        (getOr_insert hkey (by simp)) (getOr_insert hkey (by simp))
  | useInfo h =>
      exact hdOfCborContent?_congr (getOr_insert hkey (by simp)) (getOr_insert hkey (by simp))
        (hfind (by decide)) (getOr_insert hkey fun _ => h) (getOr_insert hkey (by simp))
  | parent h =>
      exact hdOfCborContent?_congr (getOr_insert hkey (by simp)) (getOr_insert hkey (by simp))
        (hfind (by decide)) (getOr_insert hkey (by simp)) (getOr_insert hkey fun _ => h)

end KeyExpression

/-! ### All readers -/

/-- No script function has one of these tags. -/
theorem Node.ofCbor?_of_structure {number : UInt64} (content : Value)
    (h : number ∈ [Cbor.Tag.coinInfo, Cbor.Tag.keyPath, Cbor.Tag.ecKey, Cbor.Tag.hdKey,
      Cbor.Tag.keyRequest]) : ofCbor? (.tag number content) = .error (.unknownTag number) := by
  rw [ofCbor?, ofCborContent?]
  simp only [List.mem_cons, List.not_mem_nil, or_false] at h
  rcases h with rfl | rfl | rfl | rfl | rfl <;> rfl

namespace Cbor

/-- In a map behind a tag, the entry says what is meant where it is absent.  The maps of
multisignatures and accounts have no optional entries. -/
def StandardEntry (number : UInt64) (fields : Fields) (key v : Value) : Prop :=
  if number = Tag.coinInfo then UseInfo.StandardEntry key v
  else if number = Tag.keyPath then Path.StandardEntry fields key v
  else if number = Tag.address then Address.StandardEntry key v
  else if number = Tag.ecKey then KeyExpression.EcStandardEntry key v
  else if number = Tag.hdKey then KeyExpression.HdStandardEntry key v
  else if number = Tag.keyRequest then KeyRequest.StandardEntry key v
  else False

/-- All readers read the same from two values, or fail with the same error. -/
structure ReadAlike (v w : Value) : Prop where
  useInfo : UseInfo.ofCbor? v = UseInfo.ofCbor? w
  path : Path.ofCbor? v = Path.ofCbor? w
  address : Address.ofCbor? v = Address.ofCbor? w
  key : KeyExpression.ofCbor? v = KeyExpression.ofCbor? w
  node : Node.ofCbor? v = Node.ofCbor? w
  descriptor : OutputDescriptor.ofCbor? v = OutputDescriptor.ofCbor? w
  account : AccountDescriptors.ofCbor? v = AccountDescriptors.ofCbor? w
  request : KeyRequest.ofCbor? v = KeyRequest.ofCbor? w

/-- No reader takes notice of a standard entry. -/
theorem readAlike_insert {number : UInt64}
    (h : StandardEntry number (before ++ (key, v) :: after) key v)
    (hkey : key ∉ (before ++ after).map Prod.fst) :
    ReadAlike (.tag number (.map (before ++ (key, v) :: after)))
      (.tag number (.map (before ++ after))) := by
  have hnode (hnumber : number ∈ [Tag.coinInfo, Tag.keyPath, Tag.ecKey, Tag.hdKey,
      Tag.keyRequest]) (a b : Value) :
      Node.ofCbor? (.tag number a) = Node.ofCbor? (.tag number b) := by
    rw [Node.ofCbor?_of_structure a hnumber, Node.ofCbor?_of_structure b hnumber]
  rw [StandardEntry] at h
  -- each tag has one reader, and all others fail before they look at the map
  repeat' split at h
  · next htag =>
    subst htag
    have hread := UseInfo.ofCborContent?_insert h hkey
    exact ⟨hread, rfl, rfl, rfl, hnode (by decide) _ _, rfl, rfl, rfl⟩
  · next htag =>
    subst htag
    have hread := Path.ofCborContent?_insert h hkey
    exact ⟨rfl, hread, rfl, rfl, hnode (by decide) _ _, rfl, rfl, rfl⟩
  · next htag =>
    subst htag
    have hread := Address.ofCborContent?_insert h hkey
    refine ⟨rfl, rfl, hread, rfl, ?_, rfl, rfl, rfl⟩
    rw [Node.ofCbor?_address, Node.ofCbor?_address, hread]
  · next htag =>
    subst htag
    have hread := KeyExpression.ecOfCborContent?_insert h hkey
    exact ⟨rfl, rfl, rfl, hread, hnode (by decide) _ _, rfl, rfl, rfl⟩
  · next htag =>
    subst htag
    have hread := KeyExpression.hdOfCborContent?_insert h hkey
    exact ⟨rfl, rfl, rfl, hread, hnode (by decide) _ _, rfl, rfl, rfl⟩
  · next htag =>
    subst htag
    have hread := KeyRequest.ofCborContent?_insert h hkey
    exact ⟨rfl, rfl, rfl, rfl, hnode (by decide) _ _, rfl, rfl, hread⟩
  · exact h.elim

end Cbor

end WalletExchange
