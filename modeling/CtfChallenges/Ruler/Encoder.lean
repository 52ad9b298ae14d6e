import CtfChallenges.Framework.CString
import CtfChallenges.Framework.RunLength
import Mathlib.Algebra.Ring.Parity

/-!
# The run-length encoder of ruler

`rle_encode` of `ruler.c` and its inverse in the solution. A pointer into the input is what is left
of the input from there on, and `none` is an access outside of a block.
-/

namespace CtfChallenges.Ruler
open Framework CString

/-- The inner loop, with the number of bytes that it has passed. -/
def countRun (c : UInt8) : List UInt8 → Nat → Option (List UInt8 × Nat)
  | [], _ => none
  | b :: p, i =>
    if b = c then
      let i := (i + 1) % 2 ^ 16
      if p = [] then some (p, i)
      else if 0x100 ≤ i then some (p, i)
      else countRun c p i
    else some (b :: p, i)

/-- The inner loop takes the longest run up to 256. -/
theorem countRun_eq (c : UInt8) (p : List UInt8) {i : Nat} (hi : i < 0x100) :
    countRun c (c :: p) i = some (p.drop (min (0xFF - i) (RunLength.lead c p)),
      i + 1 + min (0xFF - i) (RunLength.lead c p)) := by
  induction p generalizing i with
  | nil =>
    simp only [countRun, if_true, RunLength.lead, Nat.min_zero, Option.some.injEq, Prod.mk.injEq]
    exact ⟨rfl, Nat.mod_eq_of_lt (by omega)⟩
  | cons b p ih =>
    have hmod : (i + 1) % 2 ^ 16 = i + 1 := Nat.mod_eq_of_lt (by omega)
    rw [countRun, if_pos rfl]
    simp only [hmod, List.cons_ne_nil, if_false]
    by_cases hfull : 0x100 ≤ i + 1
    · rw [if_pos hfull, Nat.sub_eq_zero_of_le (by omega), Nat.zero_min]
      rfl
    · rw [if_neg hfull]
      by_cases hb : b = c
      · subst hb
        have hlead : RunLength.lead b (b :: p) = RunLength.lead b p + 1 := by simp [RunLength.lead]
        have hmin : min (0xFF - i) (RunLength.lead b p + 1) =
            min (0xFF - (i + 1)) (RunLength.lead b p) + 1 := by omega
        rw [ih (by omega), hlead, hmin, List.drop_succ_cons, Nat.add_right_comm]
        rfl
      · have hlead : RunLength.lead c (b :: p) = 0 := by simp [RunLength.lead, hb]
        rw [countRun, if_neg hb, hlead, Nat.min_zero]
        rfl

theorem countRun_shorter {c : UInt8} {p q : List UInt8} {i : Nat}
    (h : countRun c (c :: p) 0 = some (q, i)) : q.length < (c :: p).length := by
  rw [countRun_eq c p (by decide)] at h
  cases h
  rw [List.length_drop, List.length_cons]
  omega

/-- The outer loop: the rest of the input, the block for the output and how much of it is filled. -/
def encodeRuns (p : List UInt8) (out : List UInt8) (n : Nat) : Option (List UInt8 × Nat) :=
  match p with
  | [] => some (out, n)
  | c :: p =>
    match h : countRun c (c :: p) 0 with
    | none => none
    | some (q, i) => do
      let out ← store out n (UInt8.ofNat (i &&& 0xFF))
      let out ← store out (n + 1) c
      encodeRuns q out (n + 2)
termination_by p.length
decreasing_by exact countRun_shorter h

/-- `rle_encode` with the block that `malloc(len * 2)` returns, of any contents, or with `NULL`. The
result is the block in `*outbuf` and the value returned. -/
def rle_encode (buf : List UInt8) :
    Option (Vector UInt8 (buf.length * 2)) → Option (Option (List UInt8) × Nat)
  | none => some (none, 0)
  | some outbuf => (encodeRuns buf outbuf.toList 0).map fun r => (some r.1, r.2)

/-- `unrle` of the solution. A last byte without a partner is dropped. -/
def unrle : List UInt8 → List UInt8
  | a :: b :: val => List.replicate (if a = 0 then 256 else a.toNat) b ++ unrle val
  | _ => []

/-- The two bytes for a run. -/
def pair (r : Nat × UInt8) : List UInt8 := [UInt8.ofNat (r.1 &&& 0xFF), r.2]

theorem store_append {out : List UInt8} {n : Nat} (h : n < out.length) (b : UInt8) :
    ∃ out', store out n b = some out' ∧ out'.length = out.length ∧
      out'.take (n + 1) = out.take n ++ [b] := by
  refine ⟨out.set n b, if_pos h, List.length_set, ?_⟩
  rw [List.take_succ_eq_append_getElem (by simpa using h), List.getElem_set_self, List.take_set,
    List.set_eq_of_length_le (by simp)]

/-- The outer loop writes the pairs of the longest runs. -/
theorem encodeRuns_eq (p out : List UInt8) (n : Nat)
    (hroom : n + 2 * (RunLength.longest 0xFF p).length ≤ out.length) :
    ∃ out', encodeRuns p out n = some (out', n + 2 * (RunLength.longest 0xFF p).length) ∧
      out'.length = out.length ∧ out'.take (n + 2 * (RunLength.longest 0xFF p).length) =
        out.take n ++ (RunLength.longest 0xFF p).flatMap pair := by
  fun_induction RunLength.longest 0xFF p generalizing out n with
  | case1 => exact ⟨out, by simp [encodeRuns]⟩
  | case2 c p ih =>
    have hrun := countRun_eq c p (i := 0) (by decide)
    rw [List.length_cons] at hroom ⊢
    obtain ⟨out₁, hstore₁, hlen₁, htake₁⟩ := store_append (show n < out.length by omega)
      (UInt8.ofNat ((min 0xFF (RunLength.lead c p) + 1) &&& 0xFF))
    obtain ⟨out₂, hstore₂, hlen₂, htake₂⟩ := store_append (show n + 1 < out₁.length by omega) c
    obtain ⟨out', hloop, hlen, htake⟩ := ih out₂ (n + 2) (by omega)
    have hn : n + 2 + 2 * (RunLength.longest 0xFF (p.drop (min 0xFF (RunLength.lead c p)))).length =
      n + 2 * ((RunLength.longest 0xFF (p.drop (min 0xFF (RunLength.lead c p)))).length + 1) := by
      omega
    rw [hn] at hloop htake
    refine ⟨out', ?_, by omega, ?_⟩
    · rw [encodeRuns]
      split
      · rename_i hnone
        rw [hrun] at hnone
        cases hnone
      · rename_i q i hsome
        rw [hrun, Option.some.injEq, Prod.mk.injEq] at hsome
        obtain ⟨rfl, rfl⟩ := hsome
        rw [Nat.zero_add, Nat.add_comm 1, Nat.sub_zero, hstore₁]
        simp only [Option.bind_eq_bind, Option.bind_some, hstore₂, hloop]
    · rw [htake, htake₂, htake₁, List.flatMap_cons, pair, List.append_assoc, List.append_assoc]
      rfl

/-- Reading the pairs of the longest runs, a count of 256 as 0. -/
theorem unrle_flatMap_pair {runs : List (Nat × UInt8)} (h : ∀ r ∈ runs, 0 < r.1 ∧ r.1 ≤ 256) :
    unrle (runs.flatMap pair) = RunLength.expand runs := by
  induction runs with
  | nil => rfl
  | cons r runs ih =>
    obtain ⟨k, c⟩ := r
    rw [List.forall_mem_cons] at h
    have hcount : (if UInt8.ofNat (k &&& 0xFF) = 0 then 256
        else (UInt8.ofNat (k &&& 0xFF)).toNat) = k := by
      have hk := h.1
      simp only [Nat.and_two_pow_sub_one_eq_mod k 8, ← UInt8.toNat_inj, UInt8.toNat_ofNat',
        UInt8.toNat_zero]
      split <;> omega
    rw [List.flatMap_cons, pair, List.cons_append, List.cons_append, List.nil_append, unrle, hcount,
      ih h.2, RunLength.expand_cons]

/-- What a text of pairs decodes to is a sequence of runs, one for each pair. -/
theorem exists_runs (code : List UInt8) : ∃ runs : List (Nat × UInt8),
    (∀ r ∈ runs, r.1 ≤ 256) ∧ RunLength.expand runs = unrle code ∧ 2 * runs.length ≤ code.length := by
  induction code using unrle.induct with
  | case1 a b val ih =>
    obtain ⟨runs, hcount, hexpand, hlen⟩ := ih
    refine ⟨(if a = 0 then 256 else a.toNat, b) :: runs, ?_, ?_, ?_⟩
    · rw [List.forall_mem_cons]
      refine ⟨?_, hcount⟩
      have ha := a.toNat_lt
      split
      · rfl
      · omega
    · rw [RunLength.expand_cons, hexpand, unrle]
    · simp only [List.length_cons]
      omega
  | case2 code h =>
    refine ⟨[], by simp, ?_, by simp⟩
    rw [RunLength.expand_nil, unrle]
    exact h

/-- The encoder stays in its blocks, writes an even number of bytes that decode to the input, and
no other bytes that decode to it are fewer. -/
theorem rle_encode_shortest (buf : List UInt8) (outbuf : Vector UInt8 (buf.length * 2)) :
    ∃ out n, rle_encode buf (some outbuf) = some (some out, n) ∧ Even n ∧
      n ≤ 2 * buf.length ∧ out.length = 2 * buf.length ∧ unrle (out.take n) = buf ∧
      ∀ code, unrle code = buf → n ≤ code.length := by
  have hroom : 0 + 2 * (RunLength.longest 0xFF buf).length ≤ outbuf.toList.length := by
    have := RunLength.length_longest_le 0xFF buf
    rw [Vector.length_toList]
    omega
  obtain ⟨out, hloop, hlen, htake⟩ := encodeRuns_eq buf outbuf.toList 0 hroom
  rw [Nat.zero_add] at hroom hloop htake
  rw [Vector.length_toList] at hlen hroom
  refine ⟨out, _, by rw [rle_encode, hloop]; rfl, even_two_mul _, by omega, by omega, ?_, ?_⟩
  · rw [htake, List.take_zero, List.nil_append,
      unrle_flatMap_pair fun r hr => RunLength.count_of_mem_longest hr, RunLength.expand_longest]
  · intro code hcode
    obtain ⟨runs, hcount, hexpand, hcodelen⟩ := exists_runs code
    have hmin := RunLength.length_longest_expand (m := 0xFF) hcount
    rw [hexpand, hcode] at hmin
    omega

end CtfChallenges.Ruler
