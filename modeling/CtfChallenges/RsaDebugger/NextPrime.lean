import CtfChallenges.Framework.BigInt
import CtfChallenges.Framework.Memory
import Mathlib.Data.Nat.Prime.Infinite
import Mathlib.Order.Bounds.Basic

/-!
# The next prime

`next_prime` of `rsa.go` on a heap of big integers. The loop has no bound of its own; it ends
because there is no largest prime.
-/

namespace CtfChallenges.RsaDebugger
open Framework BigInt Memory

/-- The loop, for at most `fuel` passes. -/
def next_prime_loop : Nat → Heap Int → Nat → Nat → Option (Heap Int)
  | 0, _, _, _ => none
  | fuel + 1, heap, pp, one => do
    let x ← heap.load pp
    if !probablyPrime x then
      let o ← heap.load one
      next_prime_loop fuel (heap.update pp fun y => y + o) pp one
    else return heap

/-- The address of the result, and the heap with it. -/
def next_prime (fuel : Nat) (heap : Heap Int) (n : Nat) : Option (Nat × Heap Int) := do
  let pp := heap.next
  let heap := heap.malloc 0
  let one := heap.next
  let heap := heap.malloc 1
  let v ← heap.load n
  let heap := heap.update pp fun _ => v
  let heap ← next_prime_loop fuel heap pp one
  return (pp, heap)

/-- With no prime on the way and one at its end, the loop takes as many passes as there are steps. -/
theorem next_prime_loop_spec {pp one : Nat} (hne : one ≠ pp) (steps : Nat) {heap : Heap Int} {x : Int}
    {fuel : Nat} (hpp : heap.Live pp x) (hone : heap.Live one 1)
    (hskip : ∀ i < steps, probablyPrime (x + (i : Nat)) = false)
    (hprime : probablyPrime (x + steps) = true) (hfuel : steps < fuel) :
    next_prime_loop fuel heap pp one = some (heap.update pp fun y => y + steps) := by
  induction steps generalizing heap x fuel with
  | zero =>
    obtain ⟨fuel, rfl⟩ := Nat.exists_eq_succ_of_ne_zero (Nat.ne_of_gt hfuel)
    have hsame : heap.update pp (fun y => y + (0 : Nat)) = heap :=
      Heap.update_eq_self fun v _ => Int.add_zero v
    rw [hsame]
    rw [Nat.cast_zero, Int.add_zero] at hprime
    simp [next_prime_loop, hpp.load, hprime]
  | succ steps ih =>
    obtain ⟨fuel, rfl⟩ := Nat.exists_eq_succ_of_ne_zero (Nat.ne_of_gt (Nat.zero_lt_of_lt hfuel))
    have hfirst : probablyPrime x = false := by
      simpa using hskip 0 (Nat.succ_pos steps)
    have hstep : ∀ i : Nat, x + 1 + (i : Nat) = x + ((i + 1 : Nat) : Int) := by
      intro i
      push_cast
      omega
    have hpp' : (heap.update pp fun y => y + 1).Live pp (x + 1) := hpp.update_self _
    have hloop := ih hpp' (hone.update_of_ne hne _)
      (fun i hi => by rw [hstep]; exact hskip (i + 1) (Nat.succ_lt_succ hi))
      (by rw [hstep]; exact hprime) (Nat.lt_of_succ_lt_succ hfuel)
    have hsum : (fun y : Int => y + 1 + (steps : Nat)) = fun y => y + ((steps + 1 : Nat) : Int) := by
      funext y
      push_cast
      omega
    rw [Heap.update_update, hsum] at hloop
    simp [next_prime_loop, hpp.load, hone.load, hfirst, hloop]

/-- The primes from an integer on. -/
def primesFrom (v : Int) : Set Nat := {p | p.Prime ∧ v ≤ p}

theorem exists_least_prime (v : Int) : ∃ p, IsLeast (primesFrom v) p := by
  classical
  obtain ⟨p, hle, hp⟩ := Nat.exists_infinite_primes v.toNat
  have hsome : ∃ p, p ∈ primesFrom v := ⟨p, hp, by omega⟩
  exact ⟨Nat.find hsome, Nat.find_spec hsome, fun q hq => Nat.find_min' hsome hq⟩

/-- No step of the loop comes upon an earlier prime. -/
theorem not_prime_below {v : Int} {p : Nat} (h : IsLeast (primesFrom v) p) {i : Nat}
    (hi : v + i < p) : probablyPrime (v + i) = false := by
  rw [Bool.eq_false_iff, Ne, probablyPrime_iff]
  rintro ⟨q, heq, hq⟩
  have hle : p ≤ q := h.2 ⟨hq, by omega⟩
  omega

theorem least_prime_eq_two {v : Int} (hv : v ≤ 2) {p : Nat} (h : IsLeast (primesFrom v) p) :
    p = 2 :=
  le_antisymm (h.2 ⟨Nat.prime_two, hv⟩) h.1.1.two_le

/-- Whatever the integer, the loop ends at the least prime that is not below it, and no integer that
was there before has changed. -/
theorem next_prime_least {heap : Heap Int} {n : Nat} {v : Int} (hn : heap.Live n v) :
    ∃ (p pp : Nat) (heap' : Heap Int), IsLeast (primesFrom v) p ∧ (v ≤ 2 → p = 2) ∧
      (∃ passes, ∀ fuel, passes ≤ fuel → next_prime fuel heap n = some (pp, heap')) ∧
      heap'.Live pp p ∧ ∀ a w, heap.Live a w → heap'.Live a w := by
  obtain ⟨p, hp⟩ := exists_least_prime v
  have hsteps : v + ((p - v).toNat : Nat) = p := by
    have := hp.1.2
    omega
  -- the heap when the loop starts
  let start := ((heap.malloc 0).malloc 1).update heap.next fun _ => v
  have hpp : start.Live heap.next v :=
    ((Heap.live_malloc_next heap 0).malloc 1).update_self fun _ => v
  have hnew : heap.next + 1 ≠ heap.next := Nat.succ_ne_self _
  have hone : start.Live (heap.next + 1) 1 := by
    have hlive := Heap.live_malloc_next (heap.malloc 0) 1
    rw [Heap.next_malloc] at hlive
    exact hlive.update_of_ne hnew _
  have hload : ((heap.malloc 0).malloc 1).load n = some v := ((hn.malloc 0).malloc 1).load
  refine ⟨p, heap.next, start.update heap.next fun y => y + ((p - v).toNat : Nat), hp,
    fun hv => least_prime_eq_two hv hp, ⟨(p - v).toNat + 1, ?_⟩, ?_, ?_⟩
  · intro fuel hfuel
    have hloop := next_prime_loop_spec hnew (p - v).toNat hpp hone
      (fun i hi => not_prime_below hp (by omega))
      ((probablyPrime_iff _).mpr ⟨p, hsteps, hp.1.1⟩) hfuel
    simp only [next_prime, hload, Heap.next_malloc, Option.bind_eq_bind, Option.bind_some]
    exact (congrArg (Option.bind · _) hloop).trans rfl
  · have hlive := hpp.update_self fun y => y + ((p - v).toNat : Nat)
    rwa [hsteps] at hlive
  · intro a w ha
    have hne : a ≠ heap.next := Nat.ne_of_lt ha.lt
    exact (((ha.malloc 0).malloc 1).update_of_ne hne _).update_of_ne hne _

/-- From minus seven on the first prime is two. -/
theorem next_prime_least_negative :
    ∃ (p pp : Nat) (heap' : Heap Int), IsLeast (primesFrom (-7)) p ∧ ((-7 : Int) ≤ 2 → p = 2) ∧
      (∃ passes, ∀ fuel, passes ≤ fuel →
        next_prime fuel (Heap.empty.malloc (-7)) 0 = some (pp, heap')) ∧
      heap'.Live pp p ∧ ∀ a w, (Heap.empty.malloc (-7)).Live a w → heap'.Live a w :=
  next_prime_least (Heap.live_malloc_next Heap.empty (-7))

end CtfChallenges.RsaDebugger
