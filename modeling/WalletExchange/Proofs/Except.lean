/-!
# Proofs — results that may be errors

How a chain of steps that may fail has a result: each step has one, and the next step goes on from
there.
-/

namespace WalletExchange

variable {ε α β : Type}

theorem bind_eq_ok_iff {x : Except ε α} {f : α → Except ε β} {b : β} :
    (x >>= f) = .ok b ↔ ∃ a, x = .ok a ∧ f a = .ok b := by
  cases x with
  | ok a =>
      constructor
      · exact fun h => ⟨a, rfl, h⟩
      · rintro ⟨_, ⟨⟩, h⟩
        exact h
  | error e =>
      constructor
      · exact fun h => by cases h
      · rintro ⟨_, ⟨⟩, _⟩

theorem bind_eq_error_iff {x : Except ε α} {f : α → Except ε β} {e : ε} :
    (x >>= f) = .error e ↔ x = .error e ∨ ∃ a, x = .ok a ∧ f a = .error e := by
  cases x with
  | ok a =>
      constructor
      · exact fun h => .inr ⟨a, rfl, h⟩
      · rintro (⟨⟨⟩⟩ | ⟨_, ⟨⟩, h⟩)
        exact h
  | error e' =>
      constructor
      · rintro ⟨⟩
        exact .inl rfl
      · rintro (⟨⟨⟩⟩ | ⟨_, ⟨⟩, _⟩)
        rfl

theorem ok_bind (a : α) (f : α → Except ε β) : (Except.ok a >>= f) = f a := rfl

theorem map_eq_ok_iff {x : Except ε α} {f : α → β} {b : β} :
    x.map f = .ok b ↔ ∃ a, x = .ok a ∧ f a = b := by
  cases x with
  | ok a => simp [Except.map]
  | error e => simp [Except.map]

theorem mapError_eq_ok_iff {ε' : Type} {x : Except ε α} {f : ε → ε'} {a : α} :
    x.mapError f = .ok a ↔ x = .ok a := by
  cases x with
  | ok b =>
      change Except.ok (ε := ε') b = .ok a ↔ _
      rw [Except.ok.injEq, Except.ok.injEq]
  | error e => exact iff_of_false nofun nofun

/-- What comes of the only value that a result can be. -/
theorem map_eq_ok_iff_of_unique {x : Except ε α} {f : α → β} {P : Prop} {a : α} {b : β}
    (h : ∀ {c}, x = .ok c ↔ P ∧ c = a) : x.map f = .ok b ↔ P ∧ b = f a := by
  rw [map_eq_ok_iff]
  constructor
  · rintro ⟨c, hc, rfl⟩
    obtain ⟨hP, rfl⟩ := h.mp hc
    exact ⟨hP, rfl⟩
  · rintro ⟨hP, rfl⟩
    exact ⟨a, h.mpr ⟨hP, rfl⟩, rfl⟩

theorem toOption_eq_some_iff {x : Except ε α} {a : α} : x.toOption = some a ↔ x = .ok a := by
  cases x with
  | ok b => simp [Except.toOption]
  | error e => simp [Except.toOption]

/-- A list of results is a result if each of them is. -/
theorem mapM_eq_ok_iff {f : α → Except ε β} {as : List α} {bs : List β} :
    as.mapM f = .ok bs ↔ as.map f = bs.map Except.ok := by
  induction as generalizing bs with
  | nil =>
      rw [List.mapM_nil]
      change Except.ok [] = .ok bs ↔ [] = bs.map Except.ok
      rw [Except.ok.injEq, eq_comm, eq_comm (a := []), List.map_eq_nil_iff]
  | cons a as ih =>
      rw [List.mapM_cons, bind_eq_ok_iff, List.map_cons]
      constructor
      · rintro ⟨b, hb, h⟩
        obtain ⟨bs, hbs, ⟨⟩⟩ := bind_eq_ok_iff.mp h
        rw [hb, ih.mp hbs]
        rfl
      · intro h
        obtain ⟨b, bs, rfl, hb, hbs⟩ := List.map_eq_cons_iff.mp h.symm
        exact ⟨b, hb.symm, bind_eq_ok_iff.mpr ⟨bs, ih.mpr hbs.symm, rfl⟩⟩

theorem exists_mapM_eq_ok_iff {f : α → Except ε β} {as : List α} :
    (∃ bs, as.mapM f = .ok bs) ↔ ∀ a ∈ as, ∃ b, f a = .ok b := by
  constructor
  · rintro ⟨bs, h⟩ a ha
    have hmem : f a ∈ bs.map Except.ok := mapM_eq_ok_iff.mp h ▸ List.mem_map_of_mem ha
    obtain ⟨b, -, hb⟩ := List.mem_map.mp hmem
    exact ⟨b, hb.symm⟩
  · intro h
    induction as with
    | nil => exact ⟨[], rfl⟩
    | cons a as ih =>
        obtain ⟨⟨b, hb⟩, has⟩ := List.forall_mem_cons.mp h
        obtain ⟨bs, hbs⟩ := ih has
        exact ⟨b :: bs, by rw [List.mapM_cons, hb, hbs]; rfl⟩

theorem exists_of_mem_mapM {f : α → Except ε β} {as : List α} {bs : List β}
    (h : as.mapM f = .ok bs) : ∀ b ∈ bs, ∃ a ∈ as, f a = .ok b := by
  intro b hb
  have hmem : Except.ok b ∈ as.map f := mapM_eq_ok_iff.mp h ▸ List.mem_map_of_mem hb
  exact List.mem_map.mp hmem

/-- Readers that differ only in what they make of a value. -/
theorem mapM_eq_ok_iff_map {γ : Type} {f : α → Except ε β} {g : α → Except ε γ} {k : γ → β}
    {as : List α} {bs : List β} (h : ∀ a ∈ as, ∀ b, f a = .ok b ↔ ∃ c, g a = .ok c ∧ b = k c) :
    as.mapM f = .ok bs ↔ ∃ cs, as.mapM g = .ok cs ∧ bs = cs.map k := by
  induction as generalizing bs with
  | nil =>
      rw [List.mapM_nil, List.mapM_nil]
      constructor
      · rintro ⟨⟩
        exact ⟨[], rfl, rfl⟩
      · rintro ⟨_, ⟨⟩, rfl⟩
        rfl
  | cons a as ih =>
      obtain ⟨ha, has⟩ := List.forall_mem_cons.mp h
      rw [List.mapM_cons, List.mapM_cons, bind_eq_ok_iff]
      simp only [bind_eq_ok_iff]
      constructor
      · rintro ⟨b, hb, bs, hbs, ⟨⟩⟩
        obtain ⟨c, hc, rfl⟩ := (ha b).mp hb
        obtain ⟨cs, hcs, rfl⟩ := (ih has).mp hbs
        exact ⟨c :: cs, ⟨c, hc, cs, hcs, rfl⟩, rfl⟩
      · rintro ⟨_, ⟨c, hc, cs, hcs, ⟨⟩⟩, rfl⟩
        exact ⟨k c, (ha _).mpr ⟨c, hc, rfl⟩, cs.map k, (ih has).mpr ⟨cs, hcs, rfl⟩, rfl⟩

/-- What belongs together in the two lists. -/
theorem eq_ok_of_mem_zip {f : α → Except ε β} {as : List α} {bs : List β}
    (h : as.mapM f = .ok bs) : ∀ p ∈ as.zip bs, f p.1 = .ok p.2 := by
  have hmap := mapM_eq_ok_iff.mp h
  have hlength : as.length = bs.length := by simpa using congrArg List.length hmap
  rw [← List.map_inj_left]
  calc (as.zip bs).map (fun p => f p.1) = ((as.zip bs).map Prod.fst).map f := by simp
    _ = as.map f := by rw [List.map_fst_zip (Nat.le_of_eq hlength)]
    _ = bs.map Except.ok := hmap
    _ = ((as.zip bs).map Prod.snd).map Except.ok := by
      rw [List.map_snd_zip (Nat.le_of_eq hlength.symm)]
    _ = (as.zip bs).map (fun p => .ok p.2) := by simp

/-- A value that is taken from one of two places, and what comes of it. -/
theorem exists_of_ite_bind {p : Prop} [Decidable p] {x y : Except ε α} {f : α → Except ε β} {b : β}
    (h : (if p then x >>= f else y >>= f) = .ok b) : ∃ a, f a = .ok b := by
  split at h
  · obtain ⟨a, -, h⟩ := bind_eq_ok_iff.mp h
    exact ⟨a, h⟩
  · obtain ⟨a, -, h⟩ := bind_eq_ok_iff.mp h
    exact ⟨a, h⟩

/-- What holds of a result by computation holds of something. -/
theorem exists_of_any_toOption {x : Except ε α} {P : α → Prop} [DecidablePred P]
    (h : x.toOption.any (P ·) = true) : ∃ a, x = .ok a ∧ P a := by
  cases x with
  | error e => cases h
  | ok a => exact ⟨a, rfl, of_decide_eq_true h⟩

end WalletExchange
