import CtfChallenges.Framework.Keystream
import CtfChallenges.Framework.SwapLoop
import Mathlib.Data.List.FinRange

/-!
# The RC4 stream cipher

The key schedule and the generator over unsigned bytes.
-/

namespace CtfChallenges.Framework.Rc4

abbrev State := Vector UInt8 256

def cell (s : State) (i : UInt8) : UInt8 := s[i.toFin]

def exchange (s : State) (i j : UInt8) : State :=
  s.swap i.toNat j.toNat (UInt8.toNat_lt i) (UInt8.toNat_lt j)

def store (s : State) (i b : UInt8) : State := s.set i.toNat b (UInt8.toNat_lt i)

def identity : State := Vector.ofFn fun i => UInt8.ofNat i.val

def schedulePass (key : List UInt8) : State × UInt8 → Fin 256 → State × UInt8
  | (s, j), i =>
    let j := j + cell s (UInt8.ofNat i.val) + key.getD (i.val % key.length) 0
    (exchange s (UInt8.ofNat i.val) j, j)

def schedule (key : List UInt8) : State :=
  ((List.finRange 256).foldl (schedulePass key) (identity, 0)).1

structure Generator where
  s : State
  i : UInt8
  j : UInt8

def start (s : State) : Generator := ⟨s, 0, 0⟩

def Generator.step (g : Generator) : Generator :=
  let i := g.i + 1
  let j := g.j + cell g.s i
  ⟨exchange g.s i j, i, j⟩

/-- The byte that the last step put out. -/
def Generator.out (g : Generator) : UInt8 := cell g.s (cell g.s g.i + cell g.s g.j)

def keystream (s : State) (n : Nat) : List UInt8 :=
  (List.range n).map fun t => (Generator.step^[t + 1] (start s)).out

def crypt (s : State) (msg : List UInt8) : List UInt8 :=
  List.zipWith (· ^^^ ·) msg (keystream s msg.length)

theorem cell_exchange (s : State) (i j k : UInt8) :
    cell (exchange s i j) k = if k = i then cell s j else if k = j then cell s i else cell s k := by
  simp only [cell, exchange, Fin.getElem_fin, Vector.getElem_swap, UInt8.toFin_val,
    UInt8.toNat_inj]

@[simp] theorem cell_exchange_left (s : State) (i j : UInt8) :
    cell (exchange s i j) i = cell s j := by
  rw [cell_exchange, if_pos rfl]

@[simp] theorem cell_exchange_right (s : State) (i j : UInt8) :
    cell (exchange s i j) j = cell s i := by
  rw [cell_exchange]
  split
  · rename_i h
    rw [h]
  · rw [if_pos rfl]

theorem cell_exchange_of_ne (s : State) {i j k : UInt8} (hi : k ≠ i) (hj : k ≠ j) :
    cell (exchange s i j) k = cell s k := by
  rw [cell_exchange, if_neg hi, if_neg hj]

theorem cell_store (s : State) (i b k : UInt8) :
    cell (store s i b) k = if k = i then b else cell s k := by
  simp only [cell, store, Fin.getElem_fin, Vector.getElem_set, UInt8.toFin_val, UInt8.toNat_inj,
    eq_comm]

theorem cell_identity (b : UInt8) : cell identity b = b := by
  simp only [cell, identity, Fin.getElem_fin, Vector.getElem_ofFn, UInt8.toFin_val,
    UInt8.ofNat_toNat]

theorem nodup_identity : identity.toList.Nodup := by
  rw [identity, Vector.toList_ofFn, List.nodup_ofFn]
  intro i k h
  have hval := congrArg UInt8.toNat h
  simp only [UInt8.toNat_ofNat', Nat.mod_eq_of_lt i.isLt, Nat.mod_eq_of_lt k.isLt] at hval
  exact Fin.ext hval

theorem exchange_perm (s : State) (i j : UInt8) : (exchange s i j).Perm s :=
  Vector.swap_perm (UInt8.toNat_lt i) (UInt8.toNat_lt j)

theorem schedule_perm (key : List UInt8) : (schedule key).Perm identity :=
  foldl_vector_perm Prod.fst (schedulePass key) (fun p _ => exchange_perm p.1 _ _) _ _

theorem iterate_step_perm (n : Nat) (g : Generator) : (Generator.step^[n] g).s.Perm g.s := by
  induction n with
  | zero => exact Vector.Perm.rfl
  | succ n ih =>
    rw [Function.iterate_succ_apply']
    exact (exchange_perm _ _ _).trans ih

@[simp] theorem length_keystream (s : State) (n : Nat) : (keystream s n).length = n := by
  simp [keystream]

theorem keystream_succ (s : State) (n : Nat) :
    keystream s (n + 1) = keystream s n ++ [(Generator.step^[n + 1] (start s)).out] := by
  rw [keystream, List.range_succ, List.map_append]
  rfl

@[simp] theorem length_crypt (s : State) (msg : List UInt8) : (crypt s msg).length = msg.length := by
  simp [crypt]

theorem crypt_concat (s : State) (msg : List UInt8) (b : UInt8) :
    crypt s (msg ++ [b]) =
      crypt s msg ++ [b ^^^ (Generator.step^[msg.length + 1] (start s)).out] := by
  rw [crypt, List.length_append, List.length_singleton, keystream_succ,
    List.zipWith_append (length_keystream s _).symm]
  rfl

/-- Encrypting twice from the same state gives the message back. -/
theorem crypt_crypt (s : State) (msg : List UInt8) : crypt s (crypt s msg) = msg := by
  rw [crypt, length_crypt, crypt]
  exact Keystream.zipWith_xor_cancel (length_keystream s _)

end CtfChallenges.Framework.Rc4
