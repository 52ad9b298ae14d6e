import CtfChallenges.Framework.Json

/-!
# Decoding JSON into Go types

`Unmarshal` writes into a value that is already there. What a text does not give stays as it was,
and a part that does not fit is passed over; the first such part is the error in the end.
-/

namespace CtfChallenges.Framework.Json

/-- The value after it, and whether a part did not fit. -/
abbrev Decoder (α : Type) := Value → α → α × Bool

namespace Decoder

def uint (bits : Nat) : Decoder Nat
  | .null, old => (old, false)
  | .number text, old =>
    match parseUint bits text with
    | some n => (n, false)
    | none => (old, true)
  | _, old => (old, true)

def int : Decoder Int
  | .null, old => (old, false)
  | .number text, old =>
    match parseInt 64 text with
    | some n => (n, false)
    | none => (old, true)
  | _, old => (old, true)

def bool : Decoder Bool
  | .null, old => (old, false)
  | .bool b, _ => (b, false)
  | _, old => (old, true)

def string : Decoder Bytes
  | .null, old => (old, false)
  | .string text, _ => (text, false)
  | _, old => (old, true)

/-- The nil pointer is `none`; any other value first makes room for what it points to. -/
def pointer {α : Type} (zero : α) (dec : Decoder α) : Decoder (Option α)
  | .null, _ => (none, false)
  | v, old =>
    let (a, e) := dec v (old.getD zero)
    (some a, e)

/-- Elements go over the old ones as far as there are any. -/
def elements {α : Type} (zero : α) (dec : Decoder α) : List Value → List α → List α × Bool
  | [], _ => ([], false)
  | v :: vs, old =>
    let (a, e) := dec v (old.headD zero)
    let (as, e') := elements zero dec vs old.tail
    (a :: as, e || e')

/-- The nil slice is `none`. -/
def slice {α : Type} (zero : α) (dec : Decoder α) : Decoder (Option (List α))
  | .null, _ => (none, false)
  | .array vs, old =>
    let (as, e) := elements zero dec vs (old.getD [])
    (some as, e)
  | _, old => (old, true)

/-- An array of `n` elements: what is too much is left out, what is missing is zero. -/
def array {α : Type} (n : Nat) (zero : α) (dec : Decoder α) : Decoder (List α)
  | .null, old => (old, false)
  | .array vs, old =>
    let (as, e) := elements zero dec (vs.take n) old
    (as ++ List.replicate (n - as.length) zero, e)
  | _, old => (old, true)

/-- A field of a record, by what it is and how it is replaced. -/
def field {α β : Type} (get : α → β) (set : α → β → α) (dec : Decoder β) : Decoder α :=
  fun v a =>
    let (b, e) := dec v (get a)
    (set a b, e)

/-- One member of an object; a key that is for no field is passed over. -/
def member {α : Type} (fields : List (Bytes × Decoder α)) (key : Bytes) : Decoder α :=
  match (fieldOf (fields.map Prod.fst) key).bind fun name => fields.lookup name with
  | some set => set
  | none => fun _ old => (old, false)

def object {α : Type} (fields : List (Bytes × Decoder α)) : Decoder α
  | .null, old => (old, false)
  | .object members, old =>
    members.foldl (fun (a, e) (key, v) =>
      let (a, e') := member fields key v a
      (a, e || e')) (old, false)
  | _, old => (old, true)

/-- The decoder makes `a` of the value, whatever was there before. -/
def Gives {α : Type} (dec : Decoder α) (v : Value) (a : α) : Prop := ∀ old, dec v old = (a, false)

theorem gives_uint {bits n : Nat} (h : n < 2 ^ bits) :
    Gives (uint bits) (.number (formatUint n)) n := by
  intro old
  rw [uint, parseUint_formatUint h]

theorem gives_int {n : Int} (hlow : -2 ^ 63 ≤ n) (hhigh : n < 2 ^ 63) :
    Gives int (.number (formatInt n)) n := by
  intro old
  rw [int, @parseInt_formatInt 63 n hlow hhigh]

theorem gives_bool (b : Bool) : Gives bool (.bool b) b := fun _ => rfl

theorem Gives.pointer {α : Type} {dec : Decoder α} {v : Value} {a zero : α} (h : Gives dec v a)
    (hv : v ≠ .null) : Gives (pointer zero dec) v (some a) := by
  intro old
  have hdec := h (old.getD zero)
  cases v with
  | null => exact absurd rfl hv
  | _ => simp only [Decoder.pointer, hdec]

private theorem elements_map {α β : Type} {dec : Decoder α} {zero : α} {json : β → Value}
    {raw : β → α} {xs : List β} (h : ∀ x ∈ xs, Gives dec (json x) (raw x)) (old : List α) :
    elements zero dec (xs.map json) old = (xs.map raw, false) := by
  induction xs generalizing old with
  | nil => rfl
  | cons x xs ih =>
    rw [List.forall_mem_cons] at h
    rw [List.map_cons, elements, h.1, ih h.2]
    rfl

theorem gives_slice {α β : Type} {dec : Decoder α} {zero : α} {json : β → Value} {raw : β → α}
    {xs : List β} (h : ∀ x ∈ xs, Gives dec (json x) (raw x)) :
    Gives (slice zero dec) (.array (xs.map json)) (some (xs.map raw)) := by
  intro old
  rw [slice, elements_map h]

theorem gives_array {α β : Type} {dec : Decoder α} {zero : α} {json : β → Value} {raw : β → α}
    {xs : List β} {n : Nat} (hlen : xs.length = n) (h : ∀ x ∈ xs, Gives dec (json x) (raw x)) :
    Gives (array n zero dec) (.array (xs.map json)) (xs.map raw) := by
  intro old
  rw [array, List.take_of_length_le (by rw [List.length_map, hlen]), elements_map h]
  simp [hlen]

theorem lookup_head {α : Type} {key : Bytes} {a : α} {l : List (Bytes × α)} :
    ((key, a) :: l).lookup key = some a := by
  rw [List.lookup_cons, BEq.rfl]

theorem lookup_tail {α : Type} {key key' : Bytes} {a b : α} {l : List (Bytes × α)}
    (hne : (key == key') = false) (h : l.lookup key = some a) :
    ((key', b) :: l).lookup key = some a := by
  rw [List.lookup_cons, hne, h]

/-- A member under the very name of a field sets the field. -/
theorem object_cons {α β : Type} {fields : List (Bytes × Decoder α)} {key : Bytes} {v : Value}
    {members : List (Bytes × Value)} {get : α → β} {set : α → β → α} {dec : Decoder β} {b : β}
    {old : α} (hlookup : fields.lookup key = some (field get set dec)) (h : Gives dec v b) :
    object fields (.object ((key, v) :: members)) old =
      object fields (.object members) (set old b) := by
  have hmem : key ∈ fields.map Prod.fst := by
    obtain ⟨l₁, l₂, rfl, -⟩ := List.lookup_eq_some_iff.mp hlookup
    simp
  have hmember : member fields key v old = (set old b, false) := by
    rw [member, fieldOf, if_pos hmem, Option.bind_some, hlookup]
    simp only [field, h (get old)]
  rw [object, object, List.foldl_cons]
  dsimp only
  rw [hmember]
  rfl

theorem object_nil {α : Type} {fields : List (Bytes × Decoder α)} (old : α) :
    object fields (.object []) old = (old, false) := rfl

end Decoder

end CtfChallenges.Framework.Json
