import WalletExchange.Cbor.Fields

/-!
# Proofs — encodings that are read back

A value is structured if it is made of unsigned integers, byte strings, flags, arrays, maps and tags
other than those of big integers, and `Structured depth v` counts the levels too.  Such a value is
read back from its bytes, whatever comes after them, as long as these bytes are not more than a
length can say.

Main statement:

* `decode?_encode` — a structured value is read back.
-/

namespace WalletExchange.Cbor

/-! ### Heads -/

theorem takeExactly_append {α : Type} (xs rest : List α) :
    takeExactly xs.length (xs ++ rest) = some (xs, rest) := by
  induction xs with
  | nil => rfl
  | cons x xs ih => rw [List.length_cons, List.cons_append, takeExactly, ih]; rfl

theorem readNumber_ofNat {width n : Nat} (h : n < Bytes.capacity width) (rest : Bytes) :
    readNumber width (Bytes.ofNat width n ++ rest) = some (n, rest) := by
  have htake := takeExactly_append (Bytes.ofNat width n) rest
  rw [Bytes.length_ofNat] at htake
  rw [readNumber, htake, Option.map_some]
  exact congrArg (fun m => some (m, rest)) (Bytes.toNat_ofNat h)

/-- The first byte of a head holds the major type and five bits more. -/
theorem exists_first {major : Nat} (hmajor : major < 7) (low : Nat) (hlow : low < 32) :
    ∃ first, UInt8.ofNat (32 * major + low) = first ∧
      first.toNat / 32 = major ∧ first.toNat % 32 = low := by
  refine ⟨_, rfl, ?_⟩
  rw [UInt8.toNat_ofNat', Nat.mod_eq_of_lt (by omega)]
  omega

/-- A head is read back, in whichever of its five widths it is written. -/
theorem readHead_head {major n : Nat} (hmajor : major < 7) (hn : n < UInt64.size) (rest : Bytes) :
    readHead (head major n ++ rest) = some (headOfNumber major n, rest) := by
  have hseven : major ≠ 7 := Nat.ne_of_lt hmajor
  simp only [head]
  split
  · next hsmall =>
    obtain ⟨first, hfirst, hdiv, hmod⟩ := exists_first hmajor n (by omega)
    rw [hfirst]
    simp [readHead, hdiv, hmod, hsmall]
  · split
    · next h =>
      obtain ⟨first, hfirst, hdiv, hmod⟩ := exists_first hmajor 24 (by decide)
      rw [hfirst]
      simp [readHead, hdiv, hmod, readNumber_ofNat (show n < Bytes.capacity 1 from h)]
    · split
      · next h =>
        obtain ⟨first, hfirst, hdiv, hmod⟩ := exists_first hmajor 25 (by decide)
        rw [hfirst]
        simp [readHead, hdiv, hmod, hseven, readNumber_ofNat (show n < Bytes.capacity 2 from h)]
      · split
        · next h =>
          obtain ⟨first, hfirst, hdiv, hmod⟩ := exists_first hmajor 26 (by decide)
          rw [hfirst]
          simp [readHead, hdiv, hmod, hseven, readNumber_ofNat (show n < Bytes.capacity 4 from h)]
        · obtain ⟨first, hfirst, hdiv, hmod⟩ := exists_first hmajor 27 (by decide)
          rw [hfirst]
          simp [readHead, hdiv, hmod, hseven, readNumber_ofNat (show n < Bytes.capacity 8 from hn)]

theorem length_head_pos (major n : Nat) : 0 < (head major n).length := by
  rw [head]
  repeat' split
  all_goals exact Nat.succ_pos _

/-! ### Values -/

/-- A value of unsigned integers, byte strings, flags, arrays, maps and tags, with at most `depth`
levels, and without the tags of big integers. -/
inductive Structured : (depth : Nat) → Value → Prop where
  | unsigned {depth : Nat} (n : UInt64) : Structured depth (.unsigned n)
  | bytes {depth : Nat} (data : Bytes) : Structured depth (.bytes data)
  | bool {depth : Nat} (b : Bool) : Structured depth (.bool b)
  | array {depth : Nat} {items : List Value} (inner : ∀ v ∈ items, Structured depth v) :
      Structured (depth + 1) (.array items)
  | map {depth : Nat} {entries : List (Value × Value)}
      (keys : ∀ entry ∈ entries, Structured depth entry.1)
      (values : ∀ entry ∈ entries, Structured depth entry.2) :
      Structured (depth + 1) (.map entries)
  | tag {depth : Nat} {number : UInt64} {content : Value} (large : 3 < number)
      (inner : Structured depth content) : Structured (depth + 1) (.tag number content)

theorem Structured.ofFields {depth : Nat} {entries : List (UInt64 × Value)}
    (h : ∀ entry ∈ entries, Structured depth entry.2) :
    Structured (depth + 1) (.ofFields entries) := by
  refine .map ?_ ?_
  · intro entry hentry
    obtain ⟨e, -, rfl⟩ := List.mem_map.mp hentry
    exact .unsigned e.1
  · intro entry hentry
    obtain ⟨e, he, rfl⟩ := List.mem_map.mp hentry
    exact h e he

/-- An entry that is there if there is something to write. -/
theorem Structured.of_mem_toList {depth : Nat} {α : Type} {o : Option α}
    {f : α → Value} {key : UInt64} (h : ∀ a, Structured depth (f a)) :
    ∀ entry ∈ o.toList.map fun a => (key, f a), Structured depth entry.2 := by
  intro entry hentry
  obtain ⟨a, -, rfl⟩ := List.mem_map.mp hentry
  exact h a

theorem length_encode_pos {depth : Nat} {v : Value} (h : Structured depth v) :
    0 < v.encode.length := by
  cases h with
  | unsigned n => rw [Value.encode]; exact length_head_pos ..
  | bytes | array | map | tag =>
      rw [Value.encode, List.length_append]
      exact Nat.add_pos_left (length_head_pos ..) _
  | bool b => cases b <;> exact Nat.one_pos

/-- Where nesting has not ended there is a reader of parts. -/
def partOf : (depth : Nat) → Option (Bytes → Option (Value × Bytes))
  | 0 => none
  | depth + 1 => some (readValue depth)

theorem readValue_eq (depth : Nat) : readValue depth = readWith (partOf depth) := by
  cases depth <;> rfl

/-- The bytes of the parts are among those of the whole, and so is their number. -/
theorem length_encodeItems {depth : Nat} {items : List Value}
    (h : ∀ v ∈ items, Structured depth v) :
    items.length ≤ (encodeItems items).length ∧
      ∀ v ∈ items, v.encode.length ≤ (encodeItems items).length := by
  induction items with
  | nil => exact ⟨Nat.le_refl 0, List.forall_mem_nil _⟩
  | cons v items ih =>
      obtain ⟨hv, hitems⟩ := List.forall_mem_cons.mp h
      obtain ⟨hnumber, hlength⟩ := ih hitems
      have hpos := length_encode_pos hv
      rw [encodeItems, List.length_append, List.length_cons, List.forall_mem_cons]
      refine ⟨by omega, by omega, ?_⟩
      exact fun w hw => Nat.le_trans (hlength w hw) (Nat.le_add_left _ _)

theorem length_encodeEntries {depth : Nat} {entries : List (Value × Value)}
    (h : ∀ entry ∈ entries, Structured depth entry.1) :
    entries.length ≤ (encodeEntries entries).length ∧
      ∀ entry ∈ entries, entry.1.encode.length ≤ (encodeEntries entries).length ∧
        entry.2.encode.length ≤ (encodeEntries entries).length := by
  induction entries with
  | nil => exact ⟨Nat.le_refl 0, List.forall_mem_nil _⟩
  | cons entry entries ih =>
      obtain ⟨hentry, hentries⟩ := List.forall_mem_cons.mp h
      obtain ⟨hnumber, hlength⟩ := ih hentries
      have hpos := length_encode_pos hentry
      rw [encodeEntries, List.length_append, List.length_append, List.length_cons,
        List.forall_mem_cons]
      refine ⟨by omega, ⟨by omega, by omega⟩, ?_⟩
      intro e he
      obtain ⟨hkey, hvalue⟩ := hlength e he
      exact ⟨Nat.le_trans hkey (Nat.le_add_left _ _), Nat.le_trans hvalue (Nat.le_add_left _ _)⟩

theorem readMany_encodeItems (item : Bytes → Option (Value × Bytes)) {items : List Value}
    (h : ∀ v ∈ items, ∀ rest, item (v.encode ++ rest) = some (v, rest)) (rest : Bytes) :
    readMany item items.length (encodeItems items ++ rest) = some (items, rest) := by
  induction items with
  | nil => rfl
  | cons v items ih =>
      obtain ⟨hv, hitems⟩ := List.forall_mem_cons.mp h
      rw [List.length_cons, encodeItems, List.append_assoc, readMany, hv]
      simp [ih hitems]

theorem readMany_encodeEntries (item : Bytes → Option (Value × Bytes))
    {entries : List (Value × Value)}
    (hkeys : ∀ entry ∈ entries, ∀ rest, item (entry.1.encode ++ rest) = some (entry.1, rest))
    (hvalues : ∀ entry ∈ entries, ∀ rest, item (entry.2.encode ++ rest) = some (entry.2, rest))
    (rest : Bytes) :
    readMany (readEntry item) entries.length (encodeEntries entries ++ rest) =
      some (entries, rest) := by
  induction entries with
  | nil => rfl
  | cons entry entries ih =>
      obtain ⟨hkey, hkeys⟩ := List.forall_mem_cons.mp hkeys
      obtain ⟨hvalue, hvalues⟩ := List.forall_mem_cons.mp hvalues
      rw [List.length_cons, encodeEntries, List.append_assoc, List.append_assoc, readMany,
        readEntry, hkey]
      simp [hvalue, ih hkeys hvalues]

/-- A structured value is read back from its bytes, whatever comes after them. -/
theorem readValue_encode {depth : Nat} {v : Value} (h : Structured depth v)
    (hlength : v.encode.length < UInt64.size) (rest : Bytes) :
    readValue depth (v.encode ++ rest) = some (v, rest) := by
  induction h generalizing rest with
  | @unsigned depth n =>
      rw [readValue_eq, readWith, Value.encode, readHead_head (by decide) n.toNat_lt]
      simp [headOfNumber]
  | @bytes depth data =>
      rw [Value.encode, List.length_append] at hlength
      rw [readValue_eq, readWith, Value.encode, List.append_assoc,
        readHead_head (by decide) (by omega)]
      simp [headOfNumber, readBytes, takeExactly_append]
  | @bool depth b =>
      cases b <;> cases depth <;> rfl
  | @array depth items inner ih =>
      rw [Value.encode, List.length_append] at hlength
      obtain ⟨hnumber, hitems⟩ := length_encodeItems inner
      have hread := readMany_encodeItems (readValue depth)
        (fun v hv => ih v hv (by have := hitems v hv; omega)) rest
      rw [readValue_eq, readWith, Value.encode, List.append_assoc,
        readHead_head (by decide) (by omega)]
      simp [headOfNumber, partOf, readItems, hread]
  | @map depth entries keys values ihkeys ihvalues =>
      rw [Value.encode, List.length_append] at hlength
      obtain ⟨hnumber, hentries⟩ := length_encodeEntries keys
      have hread := readMany_encodeEntries (readValue depth)
        (fun e he => ihkeys e he (by have := hentries e he; omega))
        (fun e he => ihvalues e he (by have := hentries e he; omega)) rest
      rw [readValue_eq, readWith, Value.encode, List.append_assoc,
        readHead_head (by decide) (by omega)]
      simp [headOfNumber, partOf, readItems, hread]
  | @tag depth number content large inner ih =>
      rw [Value.encode, List.length_append] at hlength
      -- the content of tags 2 and 3 would be read as a big integer
      have hlarge : 3 < number.toNat := UInt64.lt_iff_toNat_lt.mp large
      have htwo : number.toNat ≠ 2 := by omega
      have hthree : number.toNat ≠ 3 := by omega
      rw [readValue_eq, readWith, Value.encode, List.append_assoc,
        readHead_head (by decide) number.toNat_lt]
      simp [headOfNumber, partOf, readBigInteger, htwo, hthree, ih (by omega)]

/-- A structured value is read back from its bytes. -/
theorem decode?_encode {v : Value} (h : Structured depthLimit v)
    (hlength : v.encode.length < UInt64.size) : Value.decode? v.encode = .ok v := by
  have hread := readValue_encode h hlength []
  rw [List.append_nil] at hread
  rw [Value.decode?, hread]

end WalletExchange.Cbor
