import CtfChallenges.Cards.House
import Mathlib.Order.Bounds.Basic

/-!
# The totals of a hand

Each ace of a hand counts one or eleven. `Value` raises aces for as long as the total is 11 or less,
and so finds the best of all these totals.
-/

namespace CtfChallenges.Cards

/-- A total of a hand, with the number of the aces that count eleven in it. -/
inductive Counted : Hand → Nat → Nat → Prop
  | nil : Counted [] 0 0
  | card {c : Card} {h : Hand} {elevens total : Nat} :
      c.rank ≠ .ace → Counted h elevens total → Counted (c :: h) elevens (c.value + total)
  | one {c : Card} {h : Hand} {elevens total : Nat} :
      c.rank = .ace → Counted h elevens total → Counted (c :: h) elevens (1 + total)
  | eleven {c : Card} {h : Hand} {elevens total : Nat} :
      c.rank = .ace → Counted h elevens total → Counted (c :: h) (elevens + 1) (11 + total)

/-- The largest total up to 21, and where there is none, the total with every ace as one. -/
def IsBest (h : Hand) (v : Nat) : Prop :=
  IsGreatest {t | t ≤ 21 ∧ ∃ elevens, Counted h elevens t} v ∨
    (∀ elevens t, Counted h elevens t → 21 < t) ∧ Counted h 0 v

@[simp] theorem Hand.hard_cons (c : Card) (h : Hand) :
    Hand.hard (c :: h) = c.value + Hand.hard h := by
  simp [Hand.hard]

@[simp] theorem Hand.aces_cons (c : Card) (h : Hand) :
    Hand.aces (c :: h) = Hand.aces h + if c.rank = .ace then 1 else 0 := by
  simp [Hand.aces, List.countP_cons]

theorem Card.value_ace {c : Card} (h : c.rank = .ace) : c.value = 1 := by
  simp [Card.value, h]

/-- The totals of a hand are ten apart, one for each number of aces raised. -/
theorem counted_iff (h : Hand) (elevens total : Nat) :
    Counted h elevens total ↔ elevens ≤ Hand.aces h ∧ total = Hand.hard h + 10 * elevens := by
  constructor
  · intro hc
    induction hc with
    | nil => simp [Hand.hard]
    | card hrank _ ih =>
      simp only [Hand.hard_cons, Hand.aces_cons, hrank, if_false]
      omega
    | one hrank _ ih =>
      simp only [Hand.hard_cons, Hand.aces_cons, hrank, if_true, Card.value_ace hrank]
      omega
    | eleven hrank _ ih =>
      simp only [Hand.hard_cons, Hand.aces_cons, hrank, if_true, Card.value_ace hrank]
      omega
  · induction h generalizing elevens total with
    | nil =>
      rintro ⟨hle, rfl⟩
      simp only [Hand.aces, List.countP_nil, Nat.le_zero] at hle
      subst hle
      exact .nil
    | cons c h ih =>
      rintro ⟨hle, rfl⟩
      by_cases hrank : c.rank = .ace
      · simp only [Hand.aces_cons, hrank, if_true] at hle
        simp only [Hand.hard_cons, Card.value_ace hrank]
        rcases Nat.eq_zero_or_pos elevens with rfl | hpos
        · have hone := Counted.one hrank (ih 0 _ ⟨Nat.zero_le _, rfl⟩)
          simpa [Nat.add_assoc] using hone
        · obtain ⟨k, rfl⟩ := Nat.exists_eq_add_of_le' hpos
          have heleven := Counted.eleven hrank (ih k _ ⟨by omega, rfl⟩)
          have htotal : 1 + Hand.hard h + 10 * (k + 1) = 11 + (Hand.hard h + 10 * k) := by omega
          rw [htotal]
          exact heleven
      · simp only [Hand.aces_cons, hrank, if_false] at hle
        have hcard := Counted.card hrank (ih elevens _ ⟨hle, rfl⟩)
        simpa [Nat.add_assoc] using hcard

/-- The loop raises aces until the next one would bust the hand. -/
theorem raiseAces_eq (aces value : Nat) :
    ∃ k ≤ aces, raiseAces aces value = value + 10 * k ∧ (k = aces ∨ 11 < value + 10 * k) ∧
      (k = 0 ∨ value + 10 * k ≤ 21) := by
  induction aces generalizing value with
  | zero => exact ⟨0, le_rfl, rfl, .inl rfl, .inl rfl⟩
  | succ aces ih =>
    by_cases hle : value ≤ 11
    · obtain ⟨k, hk, heq, hstop, hfits⟩ := ih (value + 10)
      refine ⟨k + 1, by omega, ?_, by omega, by omega⟩
      rw [raiseAces, if_pos hle, heq]
      omega
    · refine ⟨0, Nat.zero_le _, ?_, .inr (by omega), .inl rfl⟩
      rw [raiseAces, if_neg hle]
      rfl

/-- `Value` counts some of the aces as eleven, as many as fit. -/
theorem Hand.value_eq (h : Hand) :
    ∃ k ≤ Hand.aces h, Hand.value h = Hand.hard h + 10 * k ∧
      (k = Hand.aces h ∨ 11 < Hand.value h) ∧ (k = 0 ∨ Hand.value h ≤ 21) := by
  obtain ⟨k, hk, heq, hstop, hfits⟩ := raiseAces_eq (Hand.aces h) (Hand.hard h)
  rw [← heq] at hstop hfits
  exact ⟨k, hk, heq, hstop, hfits⟩

theorem Hand.value_best (h : Hand) : IsBest h (Hand.value h) := by
  obtain ⟨k, hk, heq, hstop, hfits⟩ := Hand.value_eq h
  by_cases hle : Hand.value h ≤ 21
  · left
    constructor
    · exact ⟨hle, k, (counted_iff _ _ _).mpr ⟨hk, heq⟩⟩
    · rintro t ⟨ht, elevens, hcounted⟩
      rw [counted_iff] at hcounted
      omega
  · right
    constructor
    · intro elevens t hcounted
      rw [counted_iff] at hcounted
      omega
    · rw [counted_iff]
      omega

theorem IsBest.unique {h : Hand} {v w : Nat} (hv : IsBest h v) (hw : IsBest h w) :
    v = w := by
  rcases hv with hv | ⟨hover, hv⟩
  · rcases hw with hw | ⟨hover, -⟩
    · exact hv.unique hw
    · obtain ⟨hle, elevens, hcounted⟩ := hv.1
      have := hover elevens v hcounted
      omega
  · rcases hw with hw | ⟨-, hw⟩
    · obtain ⟨hle, elevens, hcounted⟩ := hw.1
      have := hover elevens w hcounted
      omega
    · rw [counted_iff] at hv hw
      omega

/-- `Value` is the best total over all ways to count the aces of the hand. -/
theorem value_is_best (h : Hand) (v : Nat) : IsBest h v ↔ v = Hand.value h := by
  constructor
  · intro hv
    exact hv.unique (Hand.value_best h)
  · rintro rfl
    exact Hand.value_best h

end CtfChallenges.Cards
