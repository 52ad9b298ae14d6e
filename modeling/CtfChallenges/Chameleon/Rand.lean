import CtfChallenges.Chameleon.Server
import CtfChallenges.Framework.RingTable

/-!
# The random numbers of Chameleon

`mysrand` and `myrand` of `chameleon.cpp`, the keys that the client makes of them, and the copy in
`solve.cpp`. An `unsigned long` has 32 bits there.
-/

namespace CtfChallenges.Chameleon
open Framework

def N : Nat := 351
def M : Nat := 175
def R : UInt32 := 19
def TEMU : UInt32 := 11
def TEMS : UInt32 := 7
def TEMT : UInt32 := 15
def TEML : UInt32 := 17
def MATRIX_A : UInt32 := 0xE4BD75F5
def TEMB : UInt32 := 0x655E5280
def TEMC : UInt32 := 0xFFD58000

/-- The two variables of the generator. -/
structure Rand where
  mt : Vector UInt32 N
  mti : Nat

def Rand.initial : Rand := ⟨Vector.replicate N 0, N⟩

def seedPass (p : UInt32 × Vector UInt32 N) (mti : Fin N) : UInt32 × Vector UInt32 N :=
  let s := p.1 * 29945647 - 1
  (s, p.2.set mti s mti.isLt)

def mysrand (rand : Rand) (seed : UInt32) : Rand :=
  ⟨((List.finRange N).foldl seedPass (seed, rand.mt)).2, N⟩

def LOWER_MASK : UInt32 := (1 <<< R) - 1
def UPPER_MASK : UInt32 := -1 <<< R

/-- The new word of a cell. -/
def mix (cell next lagged : UInt32) : UInt32 :=
  let y := (cell &&& UPPER_MASK) ||| (next &&& LOWER_MASK)
  lagged ^^^ (y >>> 1) ^^^ (-(y &&& 1) &&& MATRIX_A)

/-- A pass of the loop over all words but the last. -/
def mixPass (p : Vector UInt32 N × Fin N) (kk : Fin (N - 1)) : Vector UInt32 N × Fin N :=
  let (mt, km) := p
  let cell : Fin N := ⟨kk, by omega⟩
  let next : Fin N := ⟨kk + 1, by omega⟩
  (mt.set kk (mix (mt.get cell) (mt.get next) (mt.get km)) cell.isLt,
    if h : km.val + 1 < N then ⟨km + 1, h⟩ else ⟨0, by decide⟩)

/-- `N` words at one time. -/
def generate (mt : Vector UInt32 N) : Vector UInt32 N :=
  let mt := ((List.finRange (N - 1)).foldl mixPass (mt, ⟨M, by decide⟩)).1
  let word (i : Nat) (h : i < N) := mt.get ⟨i, h⟩
  mt.set (N - 1) (mix (word (N - 1) (by decide)) (word 0 (by decide)) (word (M - 1) (by decide)))
    (by decide)

def temper (y : UInt32) : UInt32 :=
  let y := y ^^^ (y >>> TEMU)
  let y := y ^^^ ((y <<< TEMS) &&& TEMB)
  let y := y ^^^ ((y <<< TEMT) &&& TEMC)
  y ^^^ (y >>> TEML)

def myrand (rand : Rand) : UInt32 × Rand :=
  let (mt, mti) : Vector UInt32 N × Fin N :=
    if h : rand.mti < N then (rand.mt, ⟨rand.mti, h⟩) else (generate rand.mt, ⟨0, by decide⟩)
  (temper (mt.get mti) &&& 0x0ff, ⟨mt, mti + 1⟩)

def keyPass (p : Vector UInt8 DES_KEY_SIZE × Rand) (i : Fin DES_KEY_SIZE) :
    Vector UInt8 DES_KEY_SIZE × Rand :=
  let r := myrand p.2
  (p.1.set i ((r.1.toUInt8 &&& 0x0FF) ^^^ 0x55) i.isLt, r.2)

/-- `generate_key` with the value of `time(NULL)`. -/
def generate_key (time : Int) (buffer : Vector UInt8 DES_KEY_SIZE) (rand : Rand) :
    Vector UInt8 DES_KEY_SIZE × Rand :=
  (List.finRange DES_KEY_SIZE).foldl keyPass (buffer, mysrand rand (UInt32.ofInt time))

namespace Solver

/-- `mysrand` of `solve.cpp`, the same text. -/
def mysrand : Rand → UInt32 → Rand := Chameleon.mysrand

/-- `myrand` of `solve.cpp`, the same text. -/
def myrand : Rand → UInt32 × Rand := Chameleon.myrand

def keyPass (p : Vector UInt8 DES_KEY_SIZE × Rand) (i : Fin DES_KEY_SIZE) :
    Vector UInt8 DES_KEY_SIZE × Rand :=
  let r := Solver.myrand p.2
  (p.1.set i ((r.1.toUInt8 &&& 0x0FF) ^^^ 0x55) i.isLt, r.2)

/-- `generate_key` of `solve.cpp`, in which the seed is an argument. -/
def generate_key (seed : Int) (buffer : Vector UInt8 DES_KEY_SIZE) (rand : Rand) :
    Vector UInt8 DES_KEY_SIZE × Rand :=
  (List.finRange DES_KEY_SIZE).foldl Solver.keyPass
    (buffer, Solver.mysrand rand (UInt32.ofInt seed))

end Solver

/-- The values from the seed on. -/
def congruential (s : UInt32) : UInt32 := 29945647 * s - 1

/-- The word of the upper 13 bits of one word and the lower 19 of another, twisted. -/
def twist (u v : UInt32) : UInt32 :=
  let y := UInt32.ofBitVec (u.toBitVec.extractLsb' 19 13 ++ v.toBitVec.extractLsb' 0 19)
  (y >>> 1) ^^^ (if y.toNat % 2 = 1 then MATRIX_A else 0)

/-- The words of the generator, from the seed and the recurrence alone. -/
def word (seed : UInt32) (k : Nat) : UInt32 :=
  if k < 351 then congruential^[k + 1] seed
  else word seed (k - 176) ^^^ twist (word seed (k - 351)) (word seed (k - 350))

theorem word_recurs (seed : UInt32) :
    LaggedTable.Recurs (fun u v w => w ^^^ twist u v) N M (word seed) := by
  unfold LaggedTable.Recurs N M
  intro k
  have hold : k + 351 - 351 = k := Nat.add_sub_cancel k 351
  have hnext : k + 351 - 350 = k + 1 := Nat.add_sub_assoc (by decide) k
  have hlag : k + 351 - 176 = k + 175 := Nat.add_sub_assoc (by decide) k
  rw [word, if_neg (by omega), hold, hnext, hlag]

theorem masked_eq (u v : UInt32) : (u &&& UPPER_MASK) ||| (v &&& LOWER_MASK) =
    UInt32.ofBitVec (u.toBitVec.extractLsb' 19 13 ++ v.toBitVec.extractLsb' 0 19) := by
  apply UInt32.toBitVec_inj.mp
  apply BitVec.eq_of_getLsbD_eq
  intro i hi
  have hupper : ∀ i < 32, UPPER_MASK.toBitVec.getLsbD i = decide (19 ≤ i) := by decide
  have hlower : ∀ i < 32, LOWER_MASK.toBitVec.getLsbD i = decide (i < 19) := by decide
  simp only [UInt32.toBitVec_or, UInt32.toBitVec_and, BitVec.getLsbD_or, BitVec.getLsbD_and,
    hupper i hi, hlower i hi, BitVec.getLsbD_append, BitVec.getLsbD_extractLsb']
  by_cases hi' : i < 19
  · simp [hi', Nat.not_le.mpr hi']
  · have hsub : 19 + (i - 19) = i := by omega
    have hlt : i - 19 < 13 := by omega
    simp [hi', Nat.not_lt.mp hi', hsub, hlt]

/-- The sign that spreads over the mask is the lowest bit. -/
theorem neg_and_one (y : UInt32) :
    -(y &&& 1) &&& MATRIX_A = if y.toNat % 2 = 1 then MATRIX_A else 0 := by
  have hbit : (y &&& 1).toNat = y.toNat % 2 := by simp [Nat.and_one_is_mod]
  rcases Nat.mod_two_eq_zero_or_one y.toNat with h | h
  · have hzero : y &&& 1 = 0 := UInt32.toNat_inj.mp (hbit.trans h)
    rw [hzero, if_neg (by omega)]
    rfl
  · have hone : y &&& 1 = 1 := UInt32.toNat_inj.mp (hbit.trans h)
    rw [hone, if_pos h]
    decide

theorem mix_eq (u v w : UInt32) : mix u v w = w ^^^ twist u v := by
  simp only [mix, twist, masked_eq, neg_and_one, UInt32.xor_assoc]

open LaggedTable

variable {seed : UInt32} {b : Nat}

theorem mysrand_holds (rand : Rand) (seed : UInt32) :
    Holds (word seed) 0 0 (mysrand rand seed).mt := by
  have hpass : ∀ (n : Fin N) (p : UInt32 × Vector UInt32 N),
      (p.1 = congruential^[n] seed ∧ ∀ i (hi : i < N), i < n.val → p.2[i] = word seed i) →
        (seedPass p n).1 = congruential^[n + 1] seed ∧
          ∀ i (hi : i < N), i < n.val + 1 → (seedPass p n).2[i] = word seed i := by
    intro n p ⟨hs, hmt⟩
    have hnext : p.1 * 29945647 - 1 = congruential^[n + 1] seed := by
      rw [Function.iterate_succ_apply', ← hs, congruential, UInt32.mul_comm]
    refine ⟨hnext, fun i hi hle => ?_⟩
    simp only [seedPass, Vector.getElem_set]
    split
    · rename_i heq
      rw [hnext, word, if_pos (heq ▸ n.isLt), heq]
    · exact hmt i hi (by omega)
  have hall := foldl_finRange (fun n (p : UInt32 × Vector UInt32 N) =>
    p.1 = congruential^[n] seed ∧ ∀ i (hi : i < N), i < n → p.2[i] = word seed i) hpass
    (s := (seed, rand.mt)) ⟨rfl, fun i hi hlt => absurd hlt (Nat.not_lt_zero i)⟩
  intro i hi
  rw [if_neg (Nat.not_lt_zero i), Nat.zero_add]
  exact hall.2 i hi hi

theorem generate_holds {mt : Vector UInt32 N} (h : Holds (word seed) b 0 mt) :
    Holds (word seed) (b + N) 0 (generate mt) := by
  have hpass : ∀ (kk : Fin (N - 1)) (p : Vector UInt32 N × Fin N),
      (Holds (word seed) b kk p.1 ∧ (p.2.val = kk + M ∨ p.2.val + N = kk + M)) →
        Holds (word seed) b (kk + 1) (mixPass p kk).1 ∧
          ((mixPass p kk).2.val = kk + 1 + M ∨ (mixPass p kk).2.val + N = kk + 1 + M) := by
    intro kk p ⟨hmt, hkm⟩
    have hkk := kk.isLt
    have hN : N = 351 := rfl
    have hM : M = 175 := rfl
    constructor
    · simp only [mixPass, mix_eq]
      exact hmt.step (word_recurs seed) (by decide) (by decide) (by omega) (by omega) p.2.isLt
        (.inl rfl) hkm
    · simp only [mixPass]
      split <;> simp only <;> omega
  have hall := foldl_finRange (fun k (p : Vector UInt32 N × Fin N) =>
    Holds (word seed) b k p.1 ∧ (p.2.val = k + M ∨ p.2.val + N = k + M)) hpass
    (s := (mt, ⟨M, by decide⟩)) ⟨h, .inl (Nat.zero_add M).symm⟩
  -- the last word comes after the loop
  apply Holds.next
  simp only [generate, mix_eq]
  generalize (List.finRange (N - 1)).foldl mixPass (mt, ⟨M, by decide⟩) = p at hall ⊢
  exact hall.1.step (word_recurs seed) (by decide) (by decide) (by decide) (by decide) (by decide)
    (.inr (by decide)) (.inr (by decide))

/-- The generator after some calls: `n` words are behind it. -/
def Ready (seed : UInt32) (n : Nat) (rand : Rand) : Prop :=
  ∃ b, Holds (word seed) b 0 rand.mt ∧ rand.mti ≤ N ∧ b + rand.mti = n

theorem mysrand_ready (rand : Rand) (seed : UInt32) : Ready seed N (mysrand rand seed) :=
  ⟨0, mysrand_holds rand seed, le_rfl, Nat.zero_add N⟩

theorem myrand_ready {n : Nat} {rand : Rand} (h : Ready seed n rand) :
    (myrand rand).1 = temper (word seed n) &&& 0x0ff ∧ Ready seed (n + 1) (myrand rand).2 := by
  obtain ⟨b, hmt, hle, hn⟩ := h
  by_cases hlt : rand.mti < N
  · have hcell : rand.mt.get ⟨rand.mti, hlt⟩ = word seed n :=
      (hmt.kept hlt (Nat.zero_le _)).trans (congrArg (word seed) hn)
    simp only [myrand, dif_pos hlt, hcell, true_and]
    refine ⟨b, hmt, hlt, ?_⟩
    simp only
    omega
  · have hmt' := generate_holds hmt
    have hcell : (generate rand.mt).get ⟨0, by decide⟩ = word seed n := by
      refine (hmt'.kept (by decide) (Nat.zero_le _)).trans (congrArg (word seed) ?_)
      omega
    simp only [myrand, dif_neg hlt, hcell, true_and]
    have hpos : 0 + 1 ≤ N := by decide
    refine ⟨b + N, hmt', hpos, ?_⟩
    simp only
    omega

/-- The generator after `n` calls. -/
def calls (n : Nat) (rand : Rand) : Rand := (fun rand => (myrand rand).2)^[n] rand

theorem calls_ready (rand : Rand) (seed : UInt32) (n : Nat) :
    Ready seed (N + n) (calls n (mysrand rand seed)) := by
  induction n with
  | zero => exact mysrand_ready rand seed
  | succ n ih =>
    rw [calls, Function.iterate_succ_apply']
    exact (myrand_ready ih).2

/-- The low byte of a tempered word. -/
def lowByte (seed : UInt32) (n : Nat) : Nat := (temper (word seed n)).toNat % 256

/-- The key that goes with a seed. -/
def keyOf (seed : UInt32) : Vector UInt8 DES_KEY_SIZE :=
  Vector.ofFn fun i => UInt8.ofNat (lowByte seed (351 + i)) ^^^ 0x55

theorem low_byte (y : UInt32) : (y &&& 0x0ff).toNat = y.toNat % 256 := by
  rw [UInt32.toNat_and]
  exact Nat.and_two_pow_sub_one_eq_mod y.toNat 8

theorem keyPass_eq {i : Fin DES_KEY_SIZE} {p : Vector UInt8 DES_KEY_SIZE × Rand}
    (hready : Ready seed (N + i) p.2) :
    (keyPass p i).1 = p.1.set i (keyOf seed)[i] i.isLt ∧ Ready seed (N + (i + 1)) (keyPass p i).2 := by
  obtain ⟨hout, hready'⟩ := myrand_ready hready
  refine ⟨?_, hready'⟩
  have hbyte : ((myrand p.2).1.toUInt8 &&& 0x0FF) ^^^ 0x55 = (keyOf seed)[i] := by
    rw [hout, Fin.getElem_fin, keyOf, Vector.getElem_ofFn]
    apply congrArg (· ^^^ 0x55)
    apply UInt8.toNat_inj.mp
    have hmask : (0x0FF : UInt8) = -1 := by decide
    rw [hmask, UInt8.and_neg_one, UInt32.toNat_toUInt8, low_byte, UInt8.toNat_ofNat', lowByte]
    rfl
  rw [keyPass, hbyte]

/-- The first bytes of the key are made, and the generator goes on behind them. -/
def KeyMade (seed : UInt32) (i : Nat) (p : Vector UInt8 DES_KEY_SIZE × Rand) : Prop :=
  Ready seed (N + i) p.2 ∧ ∀ j (hj : j < DES_KEY_SIZE), j < i → p.1[j] = (keyOf seed)[j]

theorem KeyMade.pass (i : Fin DES_KEY_SIZE) (p : Vector UInt8 DES_KEY_SIZE × Rand)
    (h : KeyMade seed i p) : KeyMade seed (i + 1) (keyPass p i) := by
  obtain ⟨hset, hready'⟩ := keyPass_eq h.1
  refine ⟨hready', fun j hj hlt => ?_⟩
  simp only [hset, Vector.getElem_set]
  split
  · rename_i heq
    subst heq
    rfl
  · exact h.2 j hj (by omega)

theorem generate_key_eq (time : Int) (buffer : Vector UInt8 DES_KEY_SIZE) (rand : Rand) :
    (generate_key time buffer rand).1 = keyOf (UInt32.ofInt time) := by
  have hall : KeyMade (UInt32.ofInt time) DES_KEY_SIZE (generate_key time buffer rand) :=
    foldl_finRange (KeyMade (UInt32.ofInt time)) KeyMade.pass
      ⟨mysrand_ready rand _, fun j hj hlt => absurd hlt (Nat.not_lt_zero j)⟩
  ext j hj
  exact congrArg _ (hall.2 j hj hj)

/-- Regenerated in place, the table goes on with the recurrence for ever, and both programs make the
same key of a seed. -/
theorem myrand_recurrence (seed : UInt32) :
    (∀ rand n, (myrand (calls n (mysrand rand seed))).1.toNat = lowByte seed (351 + n)) ∧
      ∀ time : Int, UInt32.ofInt time = seed → ∀ buffer rand,
        (generate_key time buffer rand).1 = keyOf seed ∧
          (Solver.generate_key time buffer rand).1 = keyOf seed := by
  refine ⟨fun rand n => ?_, fun time htime buffer rand => ?_⟩
  · rw [(myrand_ready (calls_ready rand seed n)).1, low_byte]
    rfl
  · subst htime
    exact ⟨generate_key_eq time buffer rand, generate_key_eq time buffer rand⟩

end CtfChallenges.Chameleon
