import Mathlib.Data.List.Basic

/-!
# Reading from a generator of blocks

A reader takes any number of elements at a time from a generator that makes them block by block, and
keeps what is left of the last block for the next time. How the elements are asked for makes no
difference to what is read.
-/

namespace CtfChallenges.Framework.Keystream

variable {σ α : Type*}

/-- A generator of blocks, with the elements of its blocks that have not been read. -/
structure Reader (σ α : Type*) where
  gen : σ
  buf : List α

variable (next : σ → Option (List α × σ))

/-- Blocks are appended until there are `n` elements. There is no result when the generator fails
or the fuel runs out. -/
def fill (n : Nat) : Nat → Reader σ α → Option (Reader σ α)
  | 0, _ => none
  | fuel + 1, r =>
    if r.buf.length < n then do
      let (block, gen) ← next r.gen
      fill n fuel ⟨gen, r.buf ++ block⟩
    else some r

/-- The next `n` elements. -/
def readN (fuel n : Nat) (r : Reader σ α) : Option (List α × Reader σ α) := do
  let r ← fill next n fuel r
  return (r.buf.take n, ⟨r.gen, r.buf.drop n⟩)

/-- The first `k` blocks in a row, and the generator after them. -/
def blocks : Nat → σ → Option (List α × σ)
  | 0, gen => some ([], gen)
  | k + 1, gen => do
    let (block, gen) ← next gen
    let (rest, gen) ← blocks k gen
    return (block ++ rest, gen)

variable {next}

theorem fill_mono {n fuel fuel' : Nat} {r r' : Reader σ α} (h : fill next n fuel r = some r')
    (hle : fuel ≤ fuel') : fill next n fuel' r = some r' := by
  induction fuel generalizing fuel' r with
  | zero => cases h
  | succ fuel ih =>
    obtain ⟨fuel', rfl⟩ := Nat.exists_eq_succ_of_ne_zero (Nat.ne_of_gt (Nat.lt_of_lt_of_le
      (Nat.succ_pos fuel) hle))
    rw [fill] at h ⊢
    split at h
    · rename_i hlt
      rw [if_pos hlt]
      obtain ⟨p, hp, hrest⟩ := Option.bind_eq_some_iff.mp h
      exact Option.bind_eq_some_iff.mpr ⟨p, hp, ih hrest (Nat.le_of_succ_le_succ hle)⟩
    · rename_i hge
      rw [if_neg hge]
      exact h

/-- Filling appends blocks of the generator and ends with enough elements. -/
theorem fill_spec {n fuel : Nat} {r r' : Reader σ α} (h : fill next n fuel r = some r') :
    n ≤ r'.buf.length ∧
      ∃ k ks, blocks next k r.gen = some (ks, r'.gen) ∧ r'.buf = r.buf ++ ks := by
  induction fuel generalizing r with
  | zero => cases h
  | succ fuel ih =>
    rw [fill] at h
    split at h
    · obtain ⟨⟨block, gen⟩, hp, hrest⟩ := Option.bind_eq_some_iff.mp h
      obtain ⟨hle, k, ks, hks, hbuf⟩ := ih hrest
      refine ⟨hle, k + 1, block ++ ks, ?_, ?_⟩
      · simp only [blocks, hp, Option.bind_eq_bind, Option.bind_some, hks]
        rfl
      · rw [hbuf, List.append_assoc]
    · rename_i hge
      cases h
      exact ⟨Nat.le_of_not_lt hge, 0, [], rfl, (List.append_nil _).symm⟩

/-- Filling for fewer elements first makes no difference. -/
theorem fill_fill {n m fuel fuel' : Nat} (hnm : n ≤ m) {r r₁ r₂ : Reader σ α}
    (h : fill next n fuel r = some r₁) (h' : fill next m fuel' r₁ = some r₂) :
    fill next m (fuel + fuel') r = some r₂ := by
  induction fuel generalizing r with
  | zero => cases h
  | succ fuel ih =>
    rw [fill] at h
    split at h
    · rename_i hlt
      obtain ⟨p, hp, hrest⟩ := Option.bind_eq_some_iff.mp h
      rw [Nat.succ_add, fill, if_pos (Nat.lt_of_lt_of_le hlt hnm)]
      exact Option.bind_eq_some_iff.mpr ⟨p, hp, ih hrest⟩
    · cases h
      exact fill_mono h' (by omega)

/-- What is in front of the buffer stays there. -/
theorem fill_append {m fuel : Nat} {gen : σ} {buf : List α} {r : Reader σ α}
    (h : fill next m fuel ⟨gen, buf⟩ = some r) (front : List α) :
    fill next (front.length + m) fuel ⟨gen, front ++ buf⟩ = some ⟨r.gen, front ++ r.buf⟩ := by
  induction fuel generalizing gen buf with
  | zero => cases h
  | succ fuel ih =>
    rw [fill] at h ⊢
    rw [List.length_append]
    split at h
    · rename_i hlt
      obtain ⟨p, hp, hrest⟩ := Option.bind_eq_some_iff.mp h
      rw [if_pos (Nat.add_lt_add_left hlt _)]
      refine Option.bind_eq_some_iff.mpr ⟨p, hp, ?_⟩
      simp only [List.append_assoc]
      exact ih hrest
    · rename_i hge
      cases h
      rw [if_neg (fun hlt => hge (Nat.lt_of_add_lt_add_left hlt))]

theorem readN_mono {n fuel fuel' : Nat} {r r' : Reader σ α} {out : List α}
    (h : readN next fuel n r = some (out, r')) (hle : fuel ≤ fuel') :
    readN next fuel' n r = some (out, r') := by
  obtain ⟨r₁, hfill, hrest⟩ := Option.bind_eq_some_iff.mp h
  exact Option.bind_eq_some_iff.mpr ⟨r₁, fill_mono hfill hle, hrest⟩

theorem readN_zero (fuel : Nat) (r : Reader σ α) : readN next (fuel + 1) 0 r = some ([], r) := by
  rw [readN, fill, if_neg (Nat.not_lt_zero _)]
  rfl

/-- What is read and what is left are the blocks that the generator has made. -/
theorem readN_spec {n fuel : Nat} {r r' : Reader σ α} {out : List α}
    (h : readN next fuel n r = some (out, r')) :
    out.length = n ∧
      ∃ k ks, blocks next k r.gen = some (ks, r'.gen) ∧ r.buf ++ ks = out ++ r'.buf := by
  obtain ⟨r₁, hfill, hrest⟩ := Option.bind_eq_some_iff.mp h
  cases hrest
  obtain ⟨hle, k, ks, hks, hbuf⟩ := fill_spec hfill
  refine ⟨List.length_take_of_le hle, k, ks, hks, ?_⟩
  rw [List.take_append_drop, hbuf]

theorem readN_readN {n m fuel fuel' : Nat} {r r₁ r₂ : Reader σ α} {out out' : List α}
    (h : readN next fuel n r = some (out, r₁)) (h' : readN next fuel' m r₁ = some (out', r₂)) :
    readN next (fuel + fuel') (n + m) r = some (out ++ out', r₂) := by
  obtain ⟨s, hfill, hrest⟩ := Option.bind_eq_some_iff.mp h
  cases hrest
  obtain ⟨s', hfill', hrest'⟩ := Option.bind_eq_some_iff.mp h'
  cases hrest'
  obtain ⟨hle, -⟩ := fill_spec hfill
  have hlength : (s.buf.take n).length = n := List.length_take_of_le hle
  have hback := fill_append hfill' (s.buf.take n)
  rw [hlength, List.take_append_drop] at hback
  have hboth := fill_fill (Nat.le_add_right n m) hfill hback
  refine Option.bind_eq_some_iff.mpr ⟨_, hboth, ?_⟩
  simp only [Option.pure_def, Option.some.injEq, Prod.mk.injEq, Reader.mk.injEq, true_and]
  rw [List.take_append, List.drop_append, hlength, Nat.add_sub_cancel_left,
    List.take_of_length_le (by omega), List.drop_eq_nil_of_le (by omega)]
  exact ⟨rfl, rfl⟩

/-- Filling ends when the generator can make enough blocks of at least `w` elements, and what it can
still make is not less than before. -/
theorem fill_total {w : Nat} {P : Nat → σ → Prop}
    (hnext : ∀ k gen, P (k + 1) gen →
      ∃ block gen', next gen = some (block, gen') ∧ w ≤ block.length ∧ P k gen')
    {n k : Nat} {r : Reader σ α} (hk : P k r.gen) (hn : n ≤ r.buf.length + w * k) :
    ∃ r' j, fill next n (k + 1) r = some r' ∧ j ≤ k ∧ P j r'.gen ∧
      r.buf.length + w * k ≤ r'.buf.length + w * j := by
  by_cases hlt : r.buf.length < n
  · induction k generalizing r with
    | zero => exact absurd hn (Nat.not_le.mpr hlt)
    | succ k ih =>
      obtain ⟨block, gen, hblock, hw, hmakes⟩ := hnext k r.gen hk
      rw [Nat.mul_succ] at hn ⊢
      have hn' : n ≤ (r.buf ++ block).length + w * k := by
        rw [List.length_append]
        omega
      have hstep : fill next n (k + 1 + 1) r = fill next n (k + 1) ⟨gen, r.buf ++ block⟩ := by
        rw [fill, if_pos hlt, hblock]
        rfl
      rw [hstep]
      by_cases hlt' : (r.buf ++ block).length < n
      · obtain ⟨r', j, hfill, hj, hmakes', hle⟩ := ih (r := ⟨gen, r.buf ++ block⟩) hmakes hn' hlt'
        rw [List.length_append] at hle
        exact ⟨r', j, hfill, Nat.le_succ_of_le hj, hmakes', by omega⟩
      · refine ⟨⟨gen, r.buf ++ block⟩, k, by rw [fill, if_neg hlt'], Nat.le_succ k, hmakes, ?_⟩
        rw [List.length_append]
        omega
  · exact ⟨r, k, by rw [fill, if_neg hlt], Nat.le_refl k, hk, Nat.le_refl _⟩

theorem readN_total {w : Nat} {P : Nat → σ → Prop}
    (hnext : ∀ k gen, P (k + 1) gen →
      ∃ block gen', next gen = some (block, gen') ∧ w ≤ block.length ∧ P k gen')
    {n k : Nat} {r : Reader σ α} (hk : P k r.gen) (hn : n ≤ r.buf.length + w * k) :
    ∃ out r' j, readN next (k + 1) n r = some (out, r') ∧ j ≤ k ∧ P j r'.gen ∧
      r.buf.length + w * k ≤ n + (r'.buf.length + w * j) := by
  obtain ⟨r', j, hfill, hj, hmakes, hle⟩ := fill_total hnext hk hn
  have hread : readN next (k + 1) n r = some (r'.buf.take n, ⟨r'.gen, r'.buf.drop n⟩) := by
    rw [readN, hfill]
    rfl
  refine ⟨_, _, j, hread, hj, hmakes, ?_⟩
  rw [List.length_drop]
  omega

/-- Adding the same bytes twice gives the text back. -/
theorem zipWith_xor_cancel {text stream : List UInt8} (h : stream.length = text.length) :
    List.zipWith (· ^^^ ·) (List.zipWith (· ^^^ ·) text stream) stream = text := by
  induction text generalizing stream with
  | nil => rfl
  | cons b text ih =>
    cases stream with
    | nil => cases h
    | cons c stream =>
      rw [List.zipWith_cons_cons, List.zipWith_cons_cons, ih (Nat.succ.inj h), UInt8.xor_assoc,
        UInt8.xor_self, UInt8.xor_zero]

end CtfChallenges.Framework.Keystream
