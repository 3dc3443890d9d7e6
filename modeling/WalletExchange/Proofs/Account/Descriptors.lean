import WalletExchange.Proofs.Account.Paths
import WalletExchange.Proofs.Descriptor.KeyWords
import WalletExchange.Proofs.Descriptor.Writable

/-!
# Proofs — the descriptors of accounts

The descriptor of an account is made as text: the key is written, put into the text of its kind,
and the whole is read again.  What is read is the tree that the kind stands for, around the key with
its origin and with both branches of addresses below it.

Main statement:

* `OutputType.accountDescriptor_of_catalogue` — the descriptor of an account of a kind in the
  catalogue, or the error.
-/

namespace WalletExchange

namespace OutputType

/-- The kinds in the catalogue, with the trees that they stand for. -/
def shapes : List (OutputType × (KeyExpression → Node)) :=
  [(legacy, .key .pkh),
    (nested, fun k => .sh (.key .wpkh k)),
    (segwit, .key .wpkh),
    (legacyMultisig, fun k => .sh (.key .cosigner k)),
    (nestedMultisig, fun k => .sh (.wsh (.key .cosigner k))),
    (segwitMultisig, fun k => .wsh (.key .cosigner k)),
    (taproot, .key .tr)]

/-- The addresses of an account: two branches with an address for every index. -/
def addresses : Path := .ofSteps [.pair .receiveChange, .single ⟨.wildcard, false⟩]

/-- The key of an account with its origin and its addresses. -/
def addressKey (master : Fingerprint) (steps : List Step) (key : XKey) : KeyExpression :=
  ⟨some (.fromMaster master steps), .hd ⟨key, some addresses⟩⟩

variable {ty : OutputType} {shape : KeyExpression → Node}

theorem map_fst_shapes : shapes.map Prod.fst = catalogue := rfl

/-- A tree of the catalogue is some functions around one key. -/
theorem shape_spec (h : (ty, shape) ∈ shapes) (k : KeyExpression) :
    (shape k).keys = [k] ∧ (shape k).words = k.material.words ∧ (shape k).Shaped ∧
      (∀ script, shape k ≠ .raw script) ∧ (∀ k', shape k = .key .tr k' → k = k') ∧
      (k.Consistent → k.isUncompressed = false → (shape k).Consistent) := by
  simp only [shapes, List.mem_cons, List.not_mem_nil, or_false, Prod.mk.injEq] at h
  rcases h with ⟨rfl, rfl⟩ | ⟨rfl, rfl⟩ | ⟨rfl, rfl⟩ | ⟨rfl, rfl⟩ | ⟨rfl, rfl⟩ | ⟨rfl, rfl⟩ |
    ⟨rfl, rfl⟩ <;>
  simp +contextual [Node.keys, Node.words, Node.Shaped, Node.Consistent, Node.kind,
    NodeKind.allowedInside]

/-- The text of a kind with a key put in is the text of its tree. -/
theorem sourceFor_eq (h : (ty, shape) ∈ shapes) {k k' : KeyExpression}
    (hk : k'.render = k.render ++ "/<0;1>/*".toList) :
    ty.sourceFor (toString k) = toString (shape k') := by
  have hrender : toString k = String.ofList k.render := rfl
  have htree (n : Node) : toString n = String.ofList n.render := rfl
  rw [htree, hrender]
  simp only [shapes, List.mem_cons, List.not_mem_nil, or_false, Prod.mk.injEq] at h
  rcases h with ⟨rfl, rfl⟩ | ⟨rfl, rfl⟩ | ⟨rfl, rfl⟩ | ⟨rfl, rfl⟩ | ⟨rfl, rfl⟩ | ⟨rfl, rfl⟩ |
    ⟨rfl, rfl⟩ <;>
  simp [sourceFor, fillIn, legacy, nested, segwit, legacyMultisig, nestedMultisig, segwitMultisig,
    taproot, Node.render, Node.renderCall, KeyFunction.keyword, Keyword.name, hk]

/-! ### The key -/

variable {numbers : List ChildNumber} {master : Fingerprint} {key : XKey}

theorem valid_and_isFixed (h : ChildNumber.AllHardened numbers) :
    ∀ s ∈ numbers.map Step.ofChildNumber, s.Valid ∧ s.isFixed = true := by
  intro s hs
  obtain ⟨n, hn, rfl⟩ := List.mem_map.mp hs
  exact ⟨Step.valid_single_iff.mpr (h n hn).2, rfl⟩

theorem wellFormed_addressKey (h : ChildNumber.AllHardened numbers)
    (hchild : key.child.index.InRange) :
    (addressKey master (numbers.map Step.ofChildNumber) key).WellFormed where
  fingerprint := by
    rintro _ ⟨⟩
    rfl
  origin := by
    have hsteps := valid_and_isFixed h
    rintro _ ⟨⟩
    exact ⟨fun s hs => (hsteps s hs).1, Path.childSteps_of_fixed fun s hs => (hsteps s hs).2⟩
  child := by
    rintro _ ⟨⟩
    exact hchild
  children := by
    rintro _ ⟨⟩ _ ⟨⟩
    decide

theorem writable_addressKey (h : ChildNumber.AllHardened numbers) :
    (addressKey master (numbers.map Step.ofChildNumber) key).Writable where
  origin := by
    rintro _ ⟨⟩
    exact ⟨fun s hs => (valid_and_isFixed h s hs).2, rfl⟩
  children := by
    rintro _ ⟨⟩ _ ⟨⟩
    exact ⟨by decide, rfl, rfl⟩

/-- What is kept of a key in a text has the text of the key. -/
theorem render_addressKey (steps : List Step) (hchild : key.child.index.InRange) :
    (addressKey master steps key.printed).render =
      KeyExpression.render ⟨some (.fromMaster master steps), .hd ⟨key, none⟩⟩ ++
        "/<0;1>/*".toList := by
  have haddresses : addresses.renderChildren = "/<0;1>/*".toList := by decide
  simp [KeyExpression.render, addressKey, KeyMaterial.render, HdKey.render, haddresses,
    XKey.render_printed hchild]

/-- The text of a kind with a key put in is read as the tree of the kind around the key as it is
read back. -/
theorem ofString_sourceFor (hshape : (ty, shape) ∈ shapes) (h : ChildNumber.AllHardened numbers)
    (hchild : key.child.index.InRange) {k : KeyExpression}
    (hk : k = ⟨some (.fromMaster master (numbers.map .ofChildNumber)), .hd ⟨key, none⟩⟩) :
    OutputDescriptor.ofString (ty.sourceFor (toString k)) =
      .ok (.ofNode (shape (addressKey master (numbers.map .ofChildNumber) key.printed))) := by
  subst hk
  let k' := addressKey master (numbers.map .ofChildNumber) key.printed
  obtain ⟨hkeys, hwords, hshaped, hraw, htr, -⟩ := shape_spec hshape k'
  have hread : Token.ReadsAs (key.printed.render, .hdKey key.printed) := by
    rw [XKey.render_printed hchild]
    exact Token.readsAs_render key
  -- the text was made of the key as it was, and it is that of the tree of what is kept of the key
  rw [sourceFor_eq hshape (render_addressKey _ hchild)]
  have hwellFormed : (shape k').WellFormed := by
    refine ⟨hshaped, ?_⟩
    rw [hkeys]
    exact List.forall_mem_singleton.mpr (wellFormed_addressKey h key.inRange_printed)
  have hwritable : (shape k').Writable := by
    refine ⟨fun script hscript => absurd hscript (hraw script), ?_⟩
    rw [hkeys]
    exact List.forall_mem_singleton.mpr (writable_addressKey h)
  refine OutputDescriptor.ofString_toString hwellFormed hwritable ?_ ?_
  · intro k hk
    rw [← htr k hk]
    rfl
  · rw [hwords]
    exact List.forall_mem_singleton.mpr hread

/-! ### The descriptor -/

variable {m : XKey} {network : Network} {account : UInt32}

theorem accountKey_of_depth (ty : OutputType) (network : Network) (account : UInt32)
    (hdepth : m.depth ≠ 0) : ty.accountKey m network account = .error (.notMasterKey m.depth) := by
  have hmaster : m.isMaster = false := beq_eq_false_iff_ne.mpr hdepth
  rw [accountKey, hmaster]
  rfl

theorem accountKey_of_pathError {e : AccountError} (hdepth : m.depth = 0)
    (hpath : ty.pathOf network account = .error e) :
    ty.accountKey m network account = .error e := by
  have hmaster : m.isMaster = true := beq_iff_eq.mpr hdepth
  rw [accountKey, hmaster, hpath]
  rfl

theorem accountKey_of_path (hdepth : m.depth = 0)
    (hpath : ty.pathOf network account = .ok (.ofChildNumbers numbers)) :
    ty.accountKey m network account =
      ((derivePublic m numbers).mapError .derivation).map fun key =>
        ⟨some (.fromMaster m.fingerprint (numbers.map .ofChildNumber)), .hd ⟨.xpub key, none⟩⟩ := by
  have hmaster : m.isMaster = true := beq_iff_eq.mpr hdepth
  rw [accountKey, hmaster, hpath]
  simp only [Bool.not_true, Bool.false_eq_true, if_false, ok_bind,
    Path.childNumbers?_of_steps (p := .ofChildNumbers numbers) rfl]
  rfl

/-- The result is the one of the key, or the one of reading the text with the key put in. -/
theorem accountDescriptor_fst (ty : OutputType) (m : XKey) (network : Network) (account : UInt32) :
    (ty.accountDescriptor m network account).1 =
      (ty.accountKey m network account >>= fun key =>
        (OutputDescriptor.ofString (ty.sourceFor (toString key))).mapError .descriptor) := by
  rw [accountDescriptor]
  cases ty.accountKey m network account with
  | error e => rfl
  | ok key =>
      rw [ok_bind, OutputDescriptor.ofString]
      dsimp only
      rcases OutputDescriptor.read (ty.sourceFor (toString key)) with ⟨_ | _, _⟩ <;> rfl

/-- The child number of a key at the end of a path is the last one of the path. -/
theorem inRange_of_derivePublic {key : ExtendedPublic} (h : ChildNumber.AllHardened numbers)
    (hne : numbers ≠ []) (hkey : derivePublic m numbers = .ok key) :
    (XKey.xpub key).child.index.InRange := by
  obtain ⟨last, hlast⟩ := Option.isSome_iff_exists.mp (List.getLast?_isSome.mpr hne)
  have hchild : key.child = last := by
    rw [(below_of_derivePublic hkey).child, hlast, Option.getD_some]
  change key.child.index.InRange
  rw [hchild]
  exact (h last (List.mem_of_getLast? hlast)).2

/-- The descriptor of an account is the tree of its kind around the key as it is read back. -/
theorem accountDescriptor_of_path (hshape : (ty, shape) ∈ shapes) (hdepth : m.depth = 0)
    (h : ChildNumber.AllHardened numbers) (hne : numbers ≠ [])
    (hpath : ty.pathOf network account = .ok (.ofChildNumbers numbers)) :
    (ty.accountDescriptor m network account).1 =
      ((derivePublic m numbers).mapError .derivation).map fun key =>
        .ofNode (shape (addressKey m.fingerprint (numbers.map .ofChildNumber)
          (XKey.xpub key).printed)) := by
  rw [accountDescriptor_fst, accountKey_of_path hdepth hpath]
  cases hkey : derivePublic m numbers with
  | error e => rfl
  | ok key =>
      change ((OutputDescriptor.ofString _).mapError _) = _
      rw [ofString_sourceFor hshape h (inRange_of_derivePublic h hne hkey) rfl]
      rfl

/-- The key of an account is on the network of the master key, so a text tells all of it. -/
theorem printed_of_derivePublic {m : ExtendedPrivate} {key : ExtendedPublic}
    (hnetwork : m.network = .bitcoin ∨ m.network = .testnet)
    (h : ChildNumber.AllHardened numbers) (hne : numbers ≠ [])
    (hkey : derivePublic (.xprv m) numbers = .ok key) :
    (XKey.xpub key).printed = .xpub key := by
  have hkeyNetwork : key.network = .bitcoin ∨ key.network = .testnet := by
    rwa [(below_of_derivePublic hkey).network]
  exact XKey.printed_eq_self_iff.mpr ⟨inRange_of_derivePublic h hne hkey,
    BitcoinNetwork.exchanged_eq hkeyNetwork⟩

/-- The descriptor of an account of a kind in the catalogue is the tree of the kind around the key
at the end of the path of the account, and where there is no such key the error tells why. -/
theorem accountDescriptor_of_catalogue (network : Network) (account : UInt32) :
    shapes.map Prod.fst = catalogue ∧ ∀ ty shape, (ty, shape) ∈ shapes →
      (∀ m : XKey, m.depth ≠ 0 →
        (ty.accountDescriptor m network account).1 = .error (.notMasterKey m.depth)) ∧
      (∀ m : XKey, m.depth = 0 → ¬ account < ChildIndex.bound →
        (ty.accountDescriptor m network account).1 = .error (.indexOverflow ⟨account⟩)) ∧
      (∀ m : ExtendedPublic, m.depth = 0 → account < ChildIndex.bound →
        (ty.accountDescriptor (.xpub m) network account).1 =
          .error (.derivation .hardenedFromPublic)) ∧
      ∀ m : ExtendedPrivate, m.depth = 0 → (m.network = .bitcoin ∨ m.network = .testnet) →
        account < ChildIndex.bound →
        ∃ path numbers, ty.pathOf network account = .ok path ∧
          path.childNumbers? none .external = some numbers ∧
          (∀ key, derivePublic (.xprv m) numbers = .ok key →
            (ty.accountDescriptor (.xprv m) network account).1 =
              .ok (.ofNode (shape (addressKey m.fingerprint path.steps (.xpub key))))) ∧
          ∀ e, derivePublic (.xprv m) numbers = .error e →
            (ty.accountDescriptor (.xprv m) network account).1 = .error (.derivation e) := by
  refine ⟨map_fst_shapes, fun ty shape hshape => ?_⟩
  have hty : ty ∈ catalogue := map_fst_shapes ▸ List.mem_map_of_mem (f := Prod.fst) hshape
  refine ⟨fun m hdepth => ?_, fun m hdepth haccount => ?_, fun m hdepth haccount => ?_,
    fun m hdepth hnetwork haccount => ?_⟩
  · rw [accountDescriptor_fst, accountKey_of_depth ty network account hdepth]
    rfl
  · rw [accountDescriptor_fst,
      accountKey_of_pathError hdepth (pathOf_of_overflow hty network haccount)]
    rfl
  · obtain ⟨numbers, hne, -, h, hpath⟩ := exists_pathOf hty network haccount
    have hmaster : (XKey.xpub m).depth = 0 := hdepth
    rw [accountDescriptor_of_path hshape hmaster h hne hpath]
    obtain ⟨n, numbers, rfl⟩ := List.exists_cons_of_ne_nil hne
    rw [derivePublic_of_hardened (h n List.mem_cons_self).1]
    rfl
  · obtain ⟨numbers, hne, -, h, hpath⟩ := exists_pathOf hty network haccount
    have hmaster : (XKey.xprv m).depth = 0 := hdepth
    have hdescriptor := accountDescriptor_of_path hshape hmaster h hne hpath
    refine ⟨_, numbers, hpath, Path.childNumbers?_of_steps rfl _ _, fun key hkey => ?_,
      fun e hkey => ?_⟩
    · rw [hdescriptor, hkey, ← printed_of_derivePublic hnetwork h hne hkey]
      rfl
    · rw [hdescriptor, hkey]
      rfl

/-- Accounts of the secret one: one cosigner, one number that is no index, and a public and a child
key. -/
theorem accountDescriptor_of_secret_one :
    let m := masterOfOne
    let steps : List Step := [.ofChildNumber ⟨⟨45⟩, true⟩]
    (legacyMultisig.accountDescriptor (.xprv m) .testnet 7).1 =
      .ok (.ofNode (.sh (.key .cosigner
        (addressKey m.fingerprint steps (.xpub cosignerOfOne))))) ∧
    (taproot.accountDescriptor (.xprv m) .testnet 0x80000000).1 =
      .error (.indexOverflow ⟨0x80000000⟩) ∧
    (segwit.accountDescriptor (.xpub m.toPublic) .mainnet 7).1 =
      .error (.derivation .hardenedFromPublic) ∧
    (nested.accountDescriptor (.xprv { m with depth := 3 }) .mainnet 7).1 =
      .error (.notMasterKey 3) := by
  intro m steps
  refine ⟨?_, ?_, ?_, ?_⟩
  · obtain ⟨-, -, -, hdescriptor⟩ :=
      (accountDescriptor_of_catalogue .testnet 7).2 legacyMultisig (fun k => .sh (.key .cosigner k))
        (by simp [shapes])
    obtain ⟨path, numbers, hpath, hnumbers, hok, -⟩ := hdescriptor m rfl (.inl rfl) (by decide)
    obtain rfl : path = .ofChildNumbers [⟨⟨45⟩, true⟩] :=
      Except.ok.inj (hpath.symm.trans (by decide))
    obtain rfl : numbers = [⟨⟨45⟩, true⟩] := (Option.some.inj hnumbers).symm
    exact hok _ derivePublic_masterOfOne
  · exact ((accountDescriptor_of_catalogue .testnet 0x80000000).2 taproot (.key .tr)
      (by simp [shapes])).2.1 (.xprv m) rfl (by decide)
  · exact ((accountDescriptor_of_catalogue .mainnet 7).2 segwit (.key .wpkh)
      (by simp [shapes])).2.2.1 m.toPublic rfl (by decide)
  · exact ((accountDescriptor_of_catalogue .mainnet 7).2 nested (fun k => .sh (.key .wpkh k))
      (by simp [shapes])).1 (.xprv { m with depth := 3 }) (by decide)

end OutputType

end WalletExchange
