import WalletExchange.Text.Blank
import WalletExchange.Text.Decimal
import WalletExchange.Text.Hex
import WalletExchange.Text.Split

/-!
# Proofs — texts that are cut where they were joined

A text is cut again at a mark that does not occur in the part that is looked through, and it keeps
its ends if they are not blank.

Main statements:

* `Text.splitFirst?_append`, `Text.splitLast?_append` — a text is cut at the mark.
* `Text.splitOn_join` — pieces are found again between their separators.
* `Hex.isDigit_of_mem_encode` — bytes are written with hexadecimal digits.
-/

namespace WalletExchange

/-- What holds of each of the ten digits holds of a digit. -/
theorem Decimal.of_isDigit {c : Char} {P : Char → Prop}
    (hall : ∀ n ∈ List.range 10, P (Char.ofNat (48 + n))) (h : c.isDigit = true) : P c := by
  rw [Char.isDigit, Bool.and_eq_true, decide_eq_true_eq, decide_eq_true_eq] at h
  have hlow : 48 ≤ c.toNat := h.1
  have hhigh : c.toNat ≤ 57 := h.2
  have hc := hall (c.toNat - 48) (List.mem_range.mpr (by omega))
  rwa [Nat.add_sub_cancel' hlow, Char.ofNat_toNat] at hc

theorem Decimal.read?_eq_some_iff {text : List Char} {n : Nat} :
    read? text = some n ↔ text ≠ [] ∧ text.all Char.isDigit = true ∧ value text = n := by
  rw [read?]
  split
  · next h => simp [h]
  · next h =>
    constructor
    · rintro ⟨⟩
    · rintro ⟨hne, hdigits, -⟩
      exact absurd ⟨hne, hdigits⟩ h

namespace Text

variable {mark : Char} {before after text : List Char} {test : Char → Bool}

/-! ### Cuts at one place -/

theorem splitFirst?_append (h : mark ∉ before) :
    splitFirst? mark (before ++ mark :: after) = some (before, after) := by
  induction before with
  | nil => exact if_pos rfl
  | cons c before ih =>
      obtain ⟨hc, hbefore⟩ := not_or.mp (mt List.mem_cons.mpr h)
      rw [List.cons_append, splitFirst?, if_neg (Ne.symm hc), ih hbefore]
      rfl

theorem splitLast?_eq_none (h : mark ∉ text) : splitLast? mark text = none := by
  induction text with
  | nil => rfl
  | cons c text ih =>
      obtain ⟨hc, htext⟩ := not_or.mp (mt List.mem_cons.mpr h)
      rw [splitLast?, ih htext]
      exact if_neg (Ne.symm hc)

/-- A text is cut at the last mark. -/
theorem splitLast?_append (h : mark ∉ after) :
    splitLast? mark (before ++ mark :: after) = some (before, after) := by
  induction before with
  | nil =>
      rw [List.nil_append, splitLast?, splitLast?_eq_none h]
      exact if_pos rfl
  | cons c before ih => rw [List.cons_append, splitLast?, ih]

theorem splitLast?_ne_none (h : mark ∈ text) : splitLast? mark text ≠ none := by
  induction text with
  | nil => cases h
  | cons c text ih =>
      rw [splitLast?]
      cases hrest : splitLast? mark text with
      | some parts => exact Option.some_ne_none _
      | none =>
          rcases List.mem_cons.mp h with heq | hmem
          · dsimp only
            rw [if_pos heq.symm]
            exact Option.some_ne_none _
          · exact absurd hrest (ih hmem)

/-- No mark stands behind a cut at the last mark. -/
theorem not_mem_of_splitLast? (h : splitLast? mark text = some (before, after)) :
    mark ∉ after := by
  induction text generalizing before with
  | nil => cases h
  | cons c text ih =>
      rw [splitLast?] at h
      split at h
      · next before' after' hrest =>
        cases h
        exact ih hrest
      · next hrest =>
        split at h
        · cases h
          exact fun hmem => splitLast?_ne_none hmem hrest
        · cases h

theorem afterHead?_append (head rest : List Char) : afterHead? head (head ++ rest) = some rest := by
  rw [afterHead?, if_pos (List.isPrefixOf_iff_prefix.mpr (List.prefix_append _ _)), List.drop_left]

theorem beforeLast?_append {c : Char} (h : test c = true) :
    beforeLast? test (text ++ [c]) = some text := by
  simp [beforeLast?, h]

theorem beforeLast?_eq_some_iff :
    beforeLast? test text = some before ↔ ∃ c, text = before ++ [c] ∧ test c = true := by
  constructor
  · intro h
    rw [beforeLast?] at h
    split at h
    · next c hlast =>
      split at h
      · next htest =>
        cases h
        obtain ⟨front, rfl⟩ := List.getLast?_eq_some_iff.mp hlast
        exact ⟨c, by simp, htest⟩
      · cases h
    · cases h
  · rintro ⟨c, rfl, htest⟩
    exact beforeLast?_append htest

theorem beforeLast?_eq_none (h : ∀ c ∈ text, test c = false) : beforeLast? test text = none := by
  rw [beforeLast?]
  cases hlast : text.getLast? with
  | none => rfl
  | some c => simp [h c (List.mem_of_getLast? hlast)]

/-! ### Pieces -/

theorem join_cons (separator : Char) (first : List Char) (rest : List (List Char)) :
    join separator (first :: rest) =
      first ++ rest.flatMap fun piece => separator :: piece := by
  induction rest generalizing first with
  | nil => simp [join]
  | cons second rest ih =>
      have hjoin : join separator (first :: second :: rest) =
          first ++ separator :: join separator (second :: rest) := rfl
      rw [hjoin, ih, List.flatMap_cons, List.cons_append]

theorem join_eq_intercalate (mark : Char) (pieces : List (List Char)) :
    join mark pieces = [mark].intercalate pieces := by
  induction pieces with
  | nil => rfl
  | cons piece rest ih =>
      cases rest with
      | nil => simp [join]
      | cons next rest =>
          have hjoin : join mark (piece :: next :: rest) =
              piece ++ mark :: join mark (next :: rest) := rfl
          rw [hjoin, ih, List.intercalate_cons_cons, List.append_assoc, List.singleton_append]

theorem mem_join {c : Char} {pieces : List (List Char)} (h : c ∈ join mark pieces) :
    c = mark ∨ ∃ piece ∈ pieces, c ∈ piece := by
  cases pieces with
  | nil => exact absurd h List.not_mem_nil
  | cons first rest =>
      rw [join_cons, List.mem_append, List.mem_flatMap] at h
      rcases h with hfirst | ⟨piece, hpiece, hc⟩
      · exact .inr ⟨first, List.mem_cons_self, hfirst⟩
      · rcases List.mem_cons.mp hc with rfl | hc
        · exact .inl rfl
        · exact .inr ⟨piece, List.mem_cons_of_mem first hpiece, hc⟩

/-- Pieces are found again between their separators. -/
theorem splitOn_join {pieces : List (List Char)} (hne : pieces ≠ [])
    (h : ∀ piece ∈ pieces, mark ∉ piece) : (join mark pieces).splitOn mark = pieces := by
  rw [join_eq_intercalate, List.splitOn_intercalate mark h hne]

/-- No piece holds the separator. -/
theorem not_mem_of_mem_splitOn : ∀ piece ∈ text.splitOn mark, mark ∉ piece := by
  induction text with
  | nil => simp
  | cons c text ih =>
      rw [List.splitOn_cons_eq_if_modifyHead]
      split
      · exact List.forall_mem_cons.mpr ⟨List.not_mem_nil, ih⟩
      · next hc =>
        have hne : mark ≠ c := fun h => hc (beq_iff_eq.mpr h.symm)
        cases hpieces : text.splitOn mark with
        | nil => exact List.forall_mem_nil _
        | cons first rest =>
            rw [hpieces] at ih
            obtain ⟨hfirst, hrest⟩ := List.forall_mem_cons.mp ih
            exact List.forall_mem_cons.mpr ⟨mt List.mem_cons.mp (not_or.mpr ⟨hne, hfirst⟩), hrest⟩

/-- A text with a separator in front of it is its pieces with separators in front of them. -/
theorem flatMap_splitOn (mark : Char) (text : List Char) :
    ((text.splitOn mark).flatMap fun piece => mark :: piece) = mark :: text := by
  obtain ⟨first, rest, hpieces⟩ := List.exists_cons_of_ne_nil (List.splitOn_ne_nil mark text)
  have hjoin := join_eq_intercalate mark (text.splitOn mark)
  rw [List.intercalate_splitOn, hpieces, join_cons] at hjoin
  rw [hpieces, List.flatMap_cons, List.cons_append, hjoin]

/-! ### Letters and digits -/

/-- The numbers of letters and digits. -/
theorem range_of_isAlphanum {c : Char} (h : c.isAlphanum = true) :
    ((65 ≤ c.toNat ∧ c.toNat ≤ 90) ∨ (97 ≤ c.toNat ∧ c.toNat ≤ 122)) ∨
      (48 ≤ c.toNat ∧ c.toNat ≤ 57) := by
  have hbetween (low high : UInt32) : (decide (low ≤ c.val) && decide (c.val ≤ high)) = true ↔
      low.toNat ≤ c.toNat ∧ c.toNat ≤ high.toNat := by
    rw [Bool.and_eq_true, decide_eq_true_eq, decide_eq_true_eq, UInt32.le_iff_toNat_le,
      UInt32.le_iff_toNat_le]
    rfl
  have hupper : c.isUpper = true ↔ 65 ≤ c.toNat ∧ c.toNat ≤ 90 := decide_eq_true_iff
  have hlower : c.isLower = true ↔ 97 ≤ c.toNat ∧ c.toNat ≤ 122 := hbetween 97 122
  have hdigit : c.isDigit = true ↔ 48 ≤ c.toNat ∧ c.toNat ≤ 57 := hbetween 48 57
  change (c.isUpper || c.isLower || c.isDigit) = true at h
  rwa [Bool.or_eq_true, Bool.or_eq_true, hupper, hlower, hdigit] at h

theorem isBlank_of_isAlphanum {c : Char} (h : c.isAlphanum = true) : isBlank c = false := by
  have hrange := range_of_isAlphanum h
  simp only [isBlank, blankRanges, List.any_cons, List.any_nil, Bool.or_false, Bool.or_eq_false_iff,
    Bool.and_eq_false_iff, decide_eq_false_iff_not]
  omega

/-! ### Blanks -/

/-- A text without blanks at its two ends is kept. -/
theorem trim_eq_self_of_ends (hhead : ∀ c ∈ text.head?, isBlank c = false)
    (hlast : ∀ c ∈ text.getLast?, isBlank c = false) : trim text = text := by
  have hdrop : ∀ {text : List Char}, (∀ c ∈ text.head?, isBlank c = false) →
      text.dropWhile isBlank = text := by
    intro text h
    cases text with
    | nil => rfl
    | cons c text => exact List.dropWhile_cons_of_neg (by simp [h c rfl])
  rw [trim, hdrop hhead, hdrop (by rwa [List.head?_reverse]), List.reverse_reverse]

theorem trim_eq_self (h : ∀ c ∈ text, isBlank c = false) : trim text = text :=
  trim_eq_self_of_ends (fun c hc => h c (List.mem_of_head? hc))
    fun c hc => h c (List.mem_of_getLast? hc)

end Text

namespace Hex

theorem isDigit_of_isDigit {c : Char} (h : c.isDigit = true) : isDigit c = true := by
  rw [isDigit, digitValue?, if_pos h]
  rfl

theorem isAlphanum_of_isDigit {c : Char} (h : isDigit c = true) : c.isAlphanum = true := by
  rw [isDigit, digitValue?] at h
  change (c.isUpper || c.isLower || c.isDigit) = true
  rw [Bool.or_eq_true, Bool.or_eq_true]
  split at h
  · next hc => exact .inr hc
  · split at h
    · next hc =>
      have hhigh : c ≤ 'z' := Char.le_trans hc.2 (by decide)
      exact .inl (.inr (Bool.and_eq_true_iff.mpr
        ⟨decide_eq_true hc.1, decide_eq_true hhigh⟩))
    · split at h
      · next hc =>
        have hhigh : c ≤ 'Z' := Char.le_trans hc.2 (by decide)
        exact .inl (.inl (decide_eq_true ⟨hc.1, hhigh⟩))
      · cases h

/-- What holds of each of the sixteen digits holds of all that bytes are written with. -/
theorem of_mem_encode {P : Char → Prop} (hall : ∀ n ∈ List.range 16, P (Nat.digitChar n))
    {bytes : Bytes} : ∀ c ∈ encode bytes, P c := by
  induction bytes with
  | nil => exact List.forall_mem_nil _
  | cons b rest ih =>
      have hb : b.toNat < 256 := b.toNat_lt
      exact List.forall_mem_cons.mpr ⟨hall _ (List.mem_range.mpr (by omega)),
        List.forall_mem_cons.mpr ⟨hall _ (List.mem_range.mpr (by omega)), ih⟩⟩

theorem isDigit_of_mem_encode {bytes : Bytes} : ∀ c ∈ encode bytes, isDigit c = true :=
  of_mem_encode (by decide)

end Hex

end WalletExchange
