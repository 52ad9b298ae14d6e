import Mathlib.Algebra.Order.Group.Nat
import Mathlib.Data.List.Basic
import Mathlib.Data.List.GetD
import Mathlib.Data.Nat.Notation

/-!
# An address space with protected pages

The bytes of a process and the protection of each address, with no value for an access that faults.
The protection is changed for whole pages at a time. Addresses do not wrap.
-/

namespace CtfChallenges.Framework.AddressSpace

/-- The last `n` bytes of a number. -/
def leBytes : Nat → Nat → List UInt8
  | 0, _ => []
  | n + 1, v => UInt8.ofNat v :: leBytes n (v / 256)

def ofLe : List UInt8 → Nat
  | [] => 0
  | b :: bs => b.toNat + 256 * ofLe bs

@[simp] theorem length_leBytes (n v : Nat) : (leBytes n v).length = n := by
  induction n generalizing v with
  | zero => rfl
  | succ n ih => rw [leBytes, List.length_cons, ih]

theorem ofLe_leBytes (n v : Nat) : ofLe (leBytes n v) = v % 256 ^ n := by
  induction n generalizing v with
  | zero => rw [leBytes, ofLe, Nat.pow_zero, Nat.mod_one]
  | succ n ih =>
    rw [leBytes, ofLe, ih, Nat.pow_succ', Nat.mod_mul]
    rfl

/-- `PROT_NONE`, `PROT_READ`, and a protection that permits writing and reading. -/
inductive Prot
  | none
  | read
  | write
deriving DecidableEq, Repr

/-- An address without a protection is not mapped. -/
structure Space where
  byte : Nat → UInt8
  prot : Nat → Option Prot

namespace Space

def Readable (m : Space) (a : Nat) : Prop := m.prot a = some .read ∨ m.prot a = some .write

def Writable (m : Space) (a : Nat) : Prop := m.prot a = some .write

instance (m : Space) (a : Nat) : Decidable (m.Readable a) := by unfold Readable; infer_instance

instance (m : Space) (a : Nat) : Decidable (m.Writable a) := by unfold Writable; infer_instance

/-- The bytes from `a` on, whether they can be read or not. -/
def bytes (m : Space) (a n : Nat) : List UInt8 := (List.range n).map fun i => m.byte (a + i)

def load (m : Space) (a n : Nat) : Option (List UInt8) :=
  if ∀ i < n, m.Readable (a + i) then some (m.bytes a n) else none

/-- The memory with these bytes from `a` on. -/
def put (m : Space) (a : Nat) (bs : List UInt8) : Space :=
  { m with byte := fun x => if a ≤ x ∧ x < a + bs.length then bs.getD (x - a) 0 else m.byte x }

def store (m : Space) (a : Nat) (bs : List UInt8) : Option Space :=
  if ∀ i < bs.length, m.Writable (a + i) then some (m.put a bs) else none

/-- `n` bytes of zeroes in place of what was not mapped. -/
def map (m : Space) (a n : Nat) (p : Prot) : Space where
  byte x := if a ≤ x ∧ x < a + n then 0 else m.byte x
  prot x := if a ≤ x ∧ x < a + n then some p else m.prot x

/-- `mprotect` fails for an address that is not at the start of a page. -/
def mprotect (m : Space) (page a n : Nat) (p : Prot) : Space :=
  if page ∣ a then
    { m with prot := fun x => if a ≤ x ∧ x < a + n then (m.prot x).map fun _ => p else m.prot x }
  else m

def munmap (m : Space) (page a n : Nat) : Space :=
  if page ∣ a then
    { m with prot := fun x => if a ≤ x ∧ x < a + n then none else m.prot x }
  else m

/-- `strlen` of a string that may have as many characters as there are addresses. -/
def strlenFrom (m : Space) : Nat → Nat → Option Nat
  | 0, _ => none
  | fuel + 1, s =>
    if ¬m.Readable s then none
    else if m.byte s = 0 then some 0
    else (strlenFrom m fuel (s + 1)).map (· + 1)

def strlen (m : Space) (s : Nat) : Option Nat := m.strlenFrom (2 ^ 64) s

/-- The string and its terminator can be read at `s`. -/
def StringIn (m : Space) (s : Nat) (str : List UInt8) : Prop :=
  0 ∉ str ∧ m.load s (str.length + 1) = some (str ++ [0])

variable {m m' : Space} {a n x page : Nat} {bs : List UInt8} {p : Prot}

@[simp] theorem length_bytes (m : Space) (a n : Nat) : (m.bytes a n).length = n := by
  simp [bytes]

theorem bytes_congr (h : ∀ x, a ≤ x → x < a + n → m'.byte x = m.byte x) :
    m'.bytes a n = m.bytes a n := by
  apply List.map_congr_left
  intro i hi
  have := List.mem_range.mp hi
  exact h (a + i) (by omega) (by omega)

theorem load_eq (h : ∀ x, a ≤ x → x < a + n → m.Readable x) : m.load a n = some (m.bytes a n) := by
  apply if_pos
  intro i hi
  exact h (a + i) (by omega) (by omega)

theorem store_eq (h : ∀ x, a ≤ x → x < a + bs.length → m.Writable x) :
    m.store a bs = some (m.put a bs) := by
  apply if_pos
  intro i hi
  exact h (a + i) (by omega) (by omega)

theorem store_eq_some (h : m.store a bs = some m') :
    (∀ x, a ≤ x → x < a + bs.length → m.Writable x) ∧ m' = m.put a bs := by
  unfold store at h
  split at h
  · rename_i hall
    refine ⟨?_, (Option.some.inj h).symm⟩
    intro x hx hlt
    have := hall (x - a) (by omega)
    rwa [Nat.add_sub_cancel' hx] at this
  · cases h

@[simp] theorem put_prot (m : Space) (a : Nat) (bs : List UInt8) (x : Nat) :
    (m.put a bs).prot x = m.prot x := rfl

theorem put_byte_of_lt (h : x < a) : (m.put a bs).byte x = m.byte x :=
  if_neg (by omega)

theorem put_byte_of_ge (h : a + bs.length ≤ x) : (m.put a bs).byte x = m.byte x :=
  if_neg (by omega)

theorem put_byte (h : a ≤ x) (hlt : x < a + bs.length) :
    (m.put a bs).byte x = bs.getD (x - a) 0 :=
  if_pos ⟨h, hlt⟩

theorem bytes_put (m : Space) (a : Nat) (bs : List UInt8) :
    (m.put a bs).bytes a bs.length = bs := by
  apply List.ext_getElem
  · simp
  · intro i hi hi'
    simp only [bytes, List.getElem_map, List.getElem_range]
    rw [put_byte (by omega) (by omega), Nat.add_sub_cancel_left, List.getD_eq_getElem _ _ hi']

theorem StringIn.nil {s : Nat} (h : m.StringIn s []) : m.Readable s ∧ m.byte s = 0 := by
  obtain ⟨-, hload⟩ := h
  unfold load at hload
  split at hload
  · rename_i hall
    exact ⟨hall 0 Nat.zero_lt_one, by simpa [bytes] using hload⟩
  · cases hload

theorem StringIn.cons {s : Nat} {c : UInt8} {str : List UInt8} (h : m.StringIn s (c :: str)) :
    m.Readable s ∧ m.byte s = c ∧ c ≠ 0 ∧ m.StringIn (s + 1) str := by
  obtain ⟨hzero, hload⟩ := h
  rw [List.mem_cons, not_or] at hzero
  unfold load at hload
  split at hload
  · rename_i hall
    simp only [bytes, List.length_cons, List.range_succ_eq_map (n := str.length + 1),
      List.map_cons, List.map_map, List.cons_append, Option.some.injEq, List.cons.injEq,
      Nat.add_zero] at hload
    refine ⟨hall 0 (by simp), hload.1, Ne.symm hzero.1, hzero.2, ?_⟩
    rw [load, if_pos]
    · rw [← hload.2, bytes]
      congr 2
      funext i
      simp [Nat.add_comm, Nat.add_left_comm]
    · intro i hi
      have := hall (i + 1) (by simpa using hi)
      rwa [Nat.add_comm i 1, ← Nat.add_assoc] at this
  · cases hload

theorem strlenFrom_eq {s fuel : Nat} {str : List UInt8} (h : m.StringIn s str)
    (hfuel : str.length < fuel) : m.strlenFrom fuel s = some str.length := by
  induction str generalizing s fuel with
  | nil =>
    cases fuel with
    | zero => cases hfuel
    | succ fuel => simp [strlenFrom, h.nil]
  | cons c str ih =>
    cases fuel with
    | zero => cases hfuel
    | succ fuel =>
      obtain ⟨hread, hbyte, hne, hrest⟩ := h.cons
      simp [strlenFrom, hread, hbyte, hne, ih hrest (Nat.lt_of_succ_lt_succ hfuel)]

@[simp] theorem mprotect_byte (m : Space) (page a n : Nat) (p : Prot) (x : Nat) :
    (m.mprotect page a n p).byte x = m.byte x := by
  unfold mprotect
  split <;> rfl

theorem mprotect_prot (hpage : page ∣ a) (x : Nat) : (m.mprotect page a n p).prot x =
    if a ≤ x ∧ x < a + n then (m.prot x).map fun _ => p else m.prot x := by
  rw [mprotect, if_pos hpage]

theorem munmap_byte (m : Space) (page a n x : Nat) : (m.munmap page a n).byte x = m.byte x := by
  unfold munmap
  split <;> rfl

theorem munmap_prot (hpage : page ∣ a) (x : Nat) :
    (m.munmap page a n).prot x = if a ≤ x ∧ x < a + n then none else m.prot x := by
  rw [munmap, if_pos hpage]

end Space

/-- Where a system puts a new mapping: on whole pages that were free. -/
structure Kernel (page : Nat) where
  place : Space → Nat → Option Nat
  aligned : ∀ m n a, place m n = some a → page ∣ a
  free : ∀ m n a, place m n = some a → ∀ x, a ≤ x → x < a + n → m.prot x = none

end CtfChallenges.Framework.AddressSpace
