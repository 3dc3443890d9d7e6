import WalletExchange.Bytes
import WalletExchange.Proofs.Except

/-!
# Proofs — operations that look at their domains

A place in a list, a part of a text between two offsets in bytes, a difference of two counts and a
byte string of a fixed length are not there for all arguments.  Where the readers use them, tests
have gone before; here each operation tests its arguments itself, and reports a `Fault` if it has no
result.  A fault is no error of a reader: a checked reader has a result, an error as the reader has
it, or a fault.

A checked reader that agrees with the reader itself on all inputs never reports a fault.

Main statements:

* `Checked.splitAt?_eq_some_iff` — a text can be cut at the boundaries of its characters, and
  nowhere else.
* `Checked.total_bind` — a reader without such operations is put together as its parts are.
-/

namespace WalletExchange

/-- An operation that has no result for its arguments. -/
inductive Fault where
  /-- A place behind the end of a list. -/
  | place (i length : Nat)
  /-- An offset into a text that is not between two of its characters. -/
  | boundary (offset : Nat)
  /-- A number that is less than what is taken away from it. -/
  | difference (m n : Nat)
  /-- A number of bytes that is not the wanted one. -/
  | width (wanted found : Nat)
  deriving DecidableEq, Repr

/-- The result of an operation, or the fault that it has none. -/
abbrev Checked := Except Fault

namespace Checked

variable {α β ε : Type}

/-! ### Operations -/

/-- The item at a place. -/
def item (xs : List α) (i : Nat) : Checked α :=
  match xs[i]? with
  | some a => .ok a
  | none => .error (.place i xs.length)

/-- The items from a place on. -/
def itemsFrom (xs : List α) (i : Nat) : Checked (List α) :=
  if i ≤ xs.length then .ok (xs.drop i) else .error (.place i xs.length)

/-- What is left of a number. -/
def difference (m n : Nat) : Checked Nat :=
  if n ≤ m then .ok (m - n) else .error (.difference m n)

/-- A byte string of a fixed length. -/
def block (length : Nat) (bytes : Bytes) : Checked (Block length) :=
  match Block.ofBytes? bytes with
  | some b => .ok b
  | none => .error (.width length bytes.length)

/-- The number of bytes of a text. -/
def size : List Char → Nat
  | [] => 0
  | c :: rest => c.utf8Size + size rest

/-- The parts of a text before and after an offset in bytes, unless that is inside of a
character. -/
def splitAt? : List Char → Nat → Option (List Char × List Char)
  | text, 0 => some ([], text)
  | [], _ + 1 => none
  | c :: rest, offset + 1 =>
    if c.utf8Size ≤ offset + 1 then
      (splitAt? rest (offset + 1 - c.utf8Size)).map fun (before, after) => (c :: before, after)
    else none

/-- The parts of a text before and after an offset in bytes. -/
def splitAt (text : List Char) (offset : Nat) : Checked (List Char × List Char) :=
  match splitAt? text offset with
  | some parts => .ok parts
  | none => .error (.boundary offset)

/-- The text from an offset on. -/
def textFrom (text : List Char) (start : Nat) : Checked (List Char) := do
  let (_, after) ← splitAt text start
  return after

/-- The text between two offsets. -/
def textBetween (text : List Char) (start stop : Nat) : Checked (List Char) := do
  let (before, _) ← splitAt text stop
  textFrom before start

theorem item_of_getElem? {xs : List α} {i : Nat} {a : α} (h : xs[i]? = some a) :
    item xs i = .ok a := by
  rw [item, h]

theorem itemsFrom_of_le {xs : List α} {i : Nat} (h : i ≤ xs.length) :
    itemsFrom xs i = .ok (xs.drop i) :=
  if_pos h

theorem difference_of_le {m n : Nat} (h : n ≤ m) : difference m n = .ok (m - n) := if_pos h

theorem block_of_length {length : Nat} {bytes : Bytes} (h : bytes.length = length) :
    block length bytes = .ok ⟨bytes, h⟩ := by
  rw [block, Block.ofBytes?, dif_pos h]

@[simp] theorem size_nil : size [] = 0 := rfl

@[simp] theorem size_cons (c : Char) (text : List Char) :
    size (c :: text) = c.utf8Size + size text := rfl

@[simp] theorem size_append (a b : List Char) : size (a ++ b) = size a + size b := by
  induction a with
  | nil => rw [List.nil_append, size_nil, Nat.zero_add]
  | cons c a ih => rw [List.cons_append, size_cons, size_cons, ih, Nat.add_assoc]

theorem size_append_singleton {before : List Char} {c : Char} (h : c.utf8Size = 1) :
    size (before ++ [c]) = size before + 1 := by
  rw [size_append, size_cons, size_nil, h]

theorem size_eq_zero_iff {text : List Char} : size text = 0 ↔ text = [] := by
  cases text with
  | nil => simp
  | cons c text =>
      have hpos := c.utf8Size_pos
      simp only [size_cons, reduceCtorEq, iff_false]
      omega

theorem splitAt?_cons {c : Char} {text before after : List Char} {offset : Nat} :
    splitAt? (c :: text) offset = some (before, after) ↔
      (before = [] ∧ offset = 0 ∧ after = c :: text) ∨
        ∃ rest, before = c :: rest ∧ c.utf8Size ≤ offset ∧
          splitAt? text (offset - c.utf8Size) = some (rest, after) := by
  have hpos := c.utf8Size_pos
  cases offset with
  | zero =>
      have hlt : ¬ c.utf8Size ≤ 0 := Nat.not_le.mpr hpos
      simp [splitAt?, hlt, eq_comm]
  | succ offset =>
      rw [splitAt?]
      by_cases hle : c.utf8Size ≤ offset + 1
      · rw [if_pos hle, Option.map_eq_some_iff]
        constructor
        · rintro ⟨⟨rest, _⟩, h, ⟨⟩⟩
          exact .inr ⟨rest, rfl, hle, h⟩
        · rintro (⟨-, h, -⟩ | ⟨rest, rfl, -, h⟩)
          · cases h
          · exact ⟨(rest, after), h, rfl⟩
      · simp [hle]

/-- A text can be cut at the boundaries of its characters, and nowhere else. -/
theorem splitAt?_eq_some_iff {text before after : List Char} {offset : Nat} :
    splitAt? text offset = some (before, after) ↔
      text = before ++ after ∧ size before = offset := by
  induction text generalizing before offset with
  | nil =>
      cases offset with
      | zero =>
          rw [splitAt?, size_eq_zero_iff, @eq_comm _ [], List.append_eq_nil_iff]
          simp [eq_comm, and_comm]
      | succ offset =>
          refine iff_of_false nofun ?_
          rintro ⟨h, hsize⟩
          rw [(List.append_eq_nil_iff.mp h.symm).1] at hsize
          cases hsize
  | cons c text ih =>
      rw [splitAt?_cons]
      cases before with
      | nil => simp [eq_comm, and_comm]
      | cons d rest =>
          simp only [ih, reduceCtorEq, false_and, false_or, List.cons.injEq, List.cons_append,
            size_cons]
          constructor
          · rintro ⟨_, ⟨rfl, rfl⟩, hle, rfl, hsize⟩
            exact ⟨⟨rfl, rfl⟩, by omega⟩
          · rintro ⟨⟨rfl, rfl⟩, hsize⟩
            exact ⟨rest, ⟨rfl, rfl⟩, by omega, rfl, by omega⟩

example : splitAt? ['é', 'a'] 1 = none := rfl

theorem splitAt_size (before after : List Char) :
    splitAt (before ++ after) (size before) = .ok (before, after) := by
  rw [splitAt, splitAt?_eq_some_iff.mpr ⟨rfl, rfl⟩]

theorem textFrom_size (before after : List Char) :
    textFrom (before ++ after) (size before) = .ok after := by
  rw [textFrom, splitAt_size]
  rfl

theorem textBetween_size (before word after : List Char) :
    textBetween (before ++ (word ++ after)) (size before) (size before + size word) =
      .ok word := by
  rw [textBetween, ← List.append_assoc, ← size_append, splitAt_size]
  exact textFrom_size before word

/-! ### Readers -/

/-- A reader that may fail with an error, where each operation looks at its domain. -/
abbrev Guarded (ε : Type) := ExceptT ε Checked

/-- Go on with the result of an operation. -/
def lift (x : Checked α) : Guarded ε α := ExceptT.lift x

/-- A reader without operations that could fault. -/
def total (x : Except ε α) : Guarded ε α := ExceptT.mk (.ok x)

@[simp] theorem lift_ok (a : α) : (lift (.ok a) : Guarded ε α) = pure a := rfl

/-- A reader without operations that could fault is put together as its parts are. -/
theorem total_bind (x : Except ε α) (f : α → Except ε β) :
    total (x >>= f) = total x >>= fun a => total (f a) := by
  cases x <;> rfl

theorem mapM_total {f : α → Guarded ε β} {g : α → Except ε β} (h : ∀ a, f a = total (g a))
    (as : List α) : as.mapM f = total (as.mapM g) := by
  induction as with
  | nil => rfl
  | cons a as ih =>
      rw [List.mapM_cons, List.mapM_cons, h, ih]
      simp only [total_bind]
      rfl

end Checked

end WalletExchange
