import CtfChallenges.Gman.Password
import Mathlib.Data.Fintype.Prod
import Mathlib.Tactic.FinCases

/-!
# What the grid says

A drawn grid is accepted and gives back its bytes, and every grid can be typed.
-/

namespace CtfChallenges.Gman
open Framework

@[simp] theorem Grid.at_blank (p : Spot) : Grid.blank.at p = false := by
  simp [Grid.blank, Grid.at]

theorem Grid.at_put (g : Grid) (p q : Spot) (v : Bool) :
    (g.put p v).at q = if q = p then v else g.at q := by
  obtain ⟨i, j⟩ := p
  obtain ⟨k, l⟩ := q
  by_cases hi : i = k
  · subst hi
    by_cases hj : j = l
    · simp [Grid.put, Grid.at, hj]
    · have hj' : (j : Nat) ≠ l := fun h => hj (Fin.ext h)
      simp [Grid.put, Grid.at, hj', Ne.symm hj]
  · have hi' : (i : Nat) ≠ k := fun h => hi (Fin.ext h)
    simp [Grid.put, Grid.at, hi', Ne.symm hi]

theorem Grid.ext_at {g h : Grid} (hat : ∀ p, g.at p = h.at p) : g = h := by
  apply Vector.ext
  intro i hi
  apply Vector.ext
  intro j hj
  exact hat (⟨i, hi⟩, ⟨j, hj⟩)

/-- The cells of the loops and their mirrors are all different. -/
theorem triangle_nodup : (triangle ++ triangle.map mirror).Nodup := by decide

theorem triangle_length : triangle.length = 24 := by decide

theorem centre_not_mem : ((3, 3) : Spot) ∉ triangle ++ triangle.map mirror := by decide

private theorem at_foldl_print_cell (v : Nat) (ps : List Spot) (d : Drawing) (q : Spot)
    (hq : q ∉ ps ++ ps.map mirror) : (ps.foldl (print_cell v) d).grid.at q = d.grid.at q := by
  induction ps generalizing d with
  | nil => rfl
  | cons p ps ih =>
    simp only [List.map_cons, List.mem_append, List.mem_cons, not_or] at hq
    obtain ⟨⟨hp, hps⟩, hm, hms⟩ := hq
    rw [List.foldl_cons, ih _ (by simp only [List.mem_append, not_or]; exact ⟨hps, hms⟩)]
    simp [print_cell, Grid.at_put, hp, hm]

private theorem checksum_foldl_print_cell (v : Nat) (ps : List Spot) (ck : Bool) (g : Grid) :
    (ps.foldl (print_cell v) ⟨ps.length - 1, ck, g⟩).checksum =
      (highFirst v ps.length).foldl xor ck := by
  induction ps generalizing ck g with
  | nil => rfl
  | cons p ps ih =>
    simp only [List.foldl_cons, print_cell, List.length_cons, Nat.add_sub_cancel, highFirst_succ]
    rw [ih]

private theorem map_at_foldl_print_cell (v : Nat) (ps : List Spot) (ck : Bool) (g : Grid)
    (hnd : (ps ++ ps.map mirror).Nodup) :
    let d := ps.foldl (print_cell v) ⟨ps.length - 1, ck, g⟩
    ps.map d.grid.at = highFirst v ps.length ∧
      ∀ p ∈ ps, d.grid.at p = d.grid.at (mirror p) := by
  induction ps generalizing ck g with
  | nil => simp
  | cons p ps ih =>
    have hperm : (p :: mirror p :: (ps ++ ps.map mirror)).Nodup := by
      refine (List.Perm.nodup_iff ?_).mp hnd
      simp only [List.map_cons, List.cons_append, List.perm_cons]
      exact List.perm_middle
    rw [List.nodup_cons, List.nodup_cons, List.mem_cons, not_or] at hperm
    obtain ⟨⟨hne, hp⟩, hm, hrest⟩ := hperm
    simp only [List.foldl_cons, print_cell, List.length_cons, Nat.add_sub_cancel, highFirst_succ,
      List.map_cons, List.forall_mem_cons]
    obtain ⟨hbits, hsym⟩ := ih (ck ^^ v.testBit ps.length)
      ((g.put p (v.testBit ps.length)).put (mirror p) (v.testBit ps.length)) hrest
    have hat_p := at_foldl_print_cell v ps ⟨ps.length - 1, ck ^^ v.testBit ps.length,
      (g.put p (v.testBit ps.length)).put (mirror p) (v.testBit ps.length)⟩ p hp
    have hat_m := at_foldl_print_cell v ps ⟨ps.length - 1, ck ^^ v.testBit ps.length,
      (g.put p (v.testBit ps.length)).put (mirror p) (v.testBit ps.length)⟩ (mirror p) hm
    simp only [Grid.at_put, hne, if_true, if_false] at hat_p hat_m
    refine ⟨?_, ?_, hsym⟩
    · rw [hat_p, hbits]
    · rw [hat_p, hat_m]

private theorem foldlM_validate_cell (g : Grid) (ps : List Spot)
    (hsym : ∀ p ∈ ps, g.at p = g.at (mirror p)) (acc : Bool × Nat) :
    ps.foldlM (validate_cell g) acc =
      some ((ps.map g.at).foldl xor acc.1, shiftIn acc.2 (ps.map g.at)) := by
  induction ps generalizing acc with
  | nil => rfl
  | cons p ps ih =>
    rw [List.forall_mem_cons] at hsym
    have hcell : validate_cell g acc p =
        some (acc.1 ^^ g.at p, acc.2 <<< 1 ||| (g.at p).toNat) := by
      simp [validate_cell, ← hsym.1]
    rw [List.foldlM_cons, hcell, Option.bind_eq_bind, Option.bind_some, ih hsym.2]
    rfl

private theorem passcode_lt (a b c : UInt8) : passcode a b c < 2 ^ 24 := by
  have ha : a.toNat <<< 16 < 2 ^ 24 := by
    rw [Nat.shiftLeft_eq]
    have := a.toNat_lt
    omega
  have hb : b.toNat <<< 8 < 2 ^ 24 := by
    rw [Nat.shiftLeft_eq]
    have := b.toNat_lt
    omega
  have hc : c.toNat < 2 ^ 24 := lt_trans c.toNat_lt (by decide)
  exact Nat.xor_lt_two_pow (Nat.or_lt_two_pow (Nat.or_lt_two_pow ha hb) hc) (by decide)

private theorem packed_eq (a b c : UInt8) :
    a.toNat <<< 16 ||| b.toNat <<< 8 ||| c.toNat = a.toNat * 2 ^ 16 + b.toNat * 2 ^ 8 + c.toNat := by
  have hb := b.toNat_lt
  have hc := c.toNat_lt
  have h16 : a.toNat <<< 16 ||| b.toNat <<< 8 = (a.toNat * 2 ^ 8 + b.toNat) <<< 8 := by
    rw [← Nat.shiftLeft_add_eq_or_of_lt (by rw [Nat.shiftLeft_eq]; omega)]
    simp only [Nat.shiftLeft_eq]
    omega
  rw [h16, ← Nat.shiftLeft_add_eq_or_of_lt (by omega), Nat.shiftLeft_eq]
  omega

private theorem pack_unpack {v : Nat} (h : v < 2 ^ 24) :
    (UInt8.ofNat (v >>> 16 &&& 0xFF)).toNat * 2 ^ 16 +
      (UInt8.ofNat (v >>> 8 &&& 0xFF)).toNat * 2 ^ 8 +
      (UInt8.ofNat (v >>> 0 &&& 0xFF)).toNat = v := by
  simp only [UInt8.toNat_ofNat', Nat.shiftRight_eq_div_pow, Nat.and_two_pow_sub_one_eq_mod _ 8]
  omega

/-- What is on the screen: the bits in the cells of the loop and their mirrors, and the checksum in
the centre. -/
private theorem print_password_cells (a b c : UInt8) :
    triangle.map (print_password a b c).at = highFirst (passcode a b c) 24 ∧
      (∀ p ∈ triangle, (print_password a b c).at p = (print_password a b c).at (mirror p)) ∧
      (print_password a b c).at (3, 3) = (highFirst (passcode a b c) 24).foldl xor true := by
  have hdraw := map_at_foldl_print_cell (passcode a b c) triangle true Grid.blank triangle_nodup
  have hck := checksum_foldl_print_cell (passcode a b c) triangle true Grid.blank
  simp only [triangle_length, Nat.reduceSub] at hdraw hck
  obtain ⟨hbits, hsym⟩ := hdraw
  have hcells : ∀ p ∈ triangle ++ triangle.map mirror, (print_password a b c).at p =
      (triangle.foldl (print_cell (passcode a b c)) ⟨23, true, Grid.blank⟩).grid.at p := by
    intro p hp
    rw [print_password, Grid.at_put, if_neg]
    rintro rfl
    exact centre_not_mem hp
  refine ⟨?_, ?_, ?_⟩
  · rw [← hbits]
    exact List.map_congr_left fun p hp => hcells p (List.mem_append_left _ hp)
  · intro p hp
    rw [hcells p (List.mem_append_left _ hp),
      hcells _ (List.mem_append_right _ (List.mem_map_of_mem hp)), hsym p hp]
  · rw [print_password, Grid.at_put, if_pos rfl, hck]

theorem validate_print_password (a b c : UInt8) :
    validate_password (print_password a b c) = some (a, b, c) := by
  obtain ⟨hbits, hsym, hcentre⟩ := print_password_cells a b c
  have hresult : shiftIn 0 (highFirst (passcode a b c) 24) ^^^ scramble =
      a.toNat * 2 ^ 16 + b.toNat * 2 ^ 8 + c.toNat := by
    rw [shiftIn_highFirst_of_lt (passcode_lt a b c), passcode, Nat.xor_assoc, Nat.xor_self,
      Nat.xor_zero, packed_eq]
  have ha := a.toNat_lt
  have hb := b.toNat_lt
  have hc := c.toNat_lt
  rw [validate_password, foldlM_validate_cell _ _ hsym, hbits, Option.bind_eq_bind,
    Option.bind_some]
  simp only [hcentre, ne_eq, not_true_eq_false, if_false, hresult, Option.some.injEq,
    Prod.mk.injEq]
  refine ⟨?_, ?_, ?_⟩ <;>
    · apply UInt8.toNat_inj.mp
      simp only [UInt8.toNat_ofNat', Nat.shiftRight_eq_div_pow, Nat.and_two_pow_sub_one_eq_mod _ 8]
      omega

private theorem mem_cells_or_centre (p : Spot) :
    p ∈ triangle ∨ p ∈ triangle.map mirror ∨ p = (3, 3) := by
  revert p
  decide

private theorem mirror_mirror (p : Spot) : mirror (mirror p) = p := by
  simp [mirror]

private theorem symmetric_of_foldlM_validate_cell {g : Grid} {ps : List Spot} {acc r : Bool × Nat}
    (h : ps.foldlM (validate_cell g) acc = some r) : ∀ p ∈ ps, g.at p = g.at (mirror p) := by
  induction ps generalizing acc with
  | nil => simp
  | cons p ps ih =>
    rw [List.foldlM_cons, Option.bind_eq_bind, Option.bind_eq_some_iff] at h
    obtain ⟨acc', hcell, hrest⟩ := h
    rw [List.forall_mem_cons]
    refine ⟨?_, ih hrest⟩
    by_contra hne
    rw [validate_cell, if_pos hne] at hcell
    cases hcell

private theorem symmetric_iff (g : Grid) :
    (∀ p ∈ triangle, g.at p = g.at (mirror p)) ↔ ∀ p, g.at p = g.at (mirror p) := by
  constructor
  · intro hsym p
    rcases mem_cells_or_centre p with hp | hp | rfl
    · exact hsym p hp
    · obtain ⟨q, hq, rfl⟩ := List.mem_map.mp hp
      rw [mirror_mirror, hsym q hq]
    · rfl
  · exact fun hsym p _ => hsym p

private theorem foldl_xor_true (bits : List Bool) (ck : Bool) :
    bits.foldl xor ck = (ck ^^ !decide (Even (bits.countP id))) := by
  induction bits generalizing ck with
  | nil => simp
  | cons b bits ih =>
    rw [List.foldl_cons, ih, List.countP_cons]
    cases b <;> cases ck <;> simp [Nat.even_add_one, -Nat.not_even_iff_odd]

private theorem checksum_eq (g : Grid) :
    (triangle.map g.at).foldl xor true = decide (Even (triangle.countP g.at)) := by
  rw [foldl_xor_true, List.countP_map]
  simp

theorem validate_password_eq_some_iff (g : Grid) (r : UInt8 × UInt8 × UInt8) :
    validate_password g = some r ↔ (∀ p, g.at p = g.at (mirror p)) ∧
      g.at (3, 3) = decide (Even (triangle.countP g.at)) ∧
      r = (UInt8.ofNat ((shiftIn 0 (triangle.map g.at) ^^^ scramble) >>> 16 &&& 0xFF),
        UInt8.ofNat ((shiftIn 0 (triangle.map g.at) ^^^ scramble) >>> 8 &&& 0xFF),
        UInt8.ofNat ((shiftIn 0 (triangle.map g.at) ^^^ scramble) >>> 0 &&& 0xFF)) := by
  rw [← symmetric_iff]
  constructor
  · intro h
    rw [validate_password, Option.bind_eq_bind, Option.bind_eq_some_iff] at h
    obtain ⟨acc, hloop, h⟩ := h
    have hsym := symmetric_of_foldlM_validate_cell hloop
    rw [foldlM_validate_cell g triangle hsym, Option.some.injEq] at hloop
    subst hloop
    simp only [checksum_eq] at h
    split at h
    · cases h
    · rename_i hck
      exact ⟨hsym, (not_not.mp hck).symm, (Option.some.inj h).symm⟩
  · rintro ⟨hsym, hck, rfl⟩
    rw [validate_password, foldlM_validate_cell g triangle hsym, Option.bind_eq_bind,
      Option.bind_some]
    simp [checksum_eq, hck]

private theorem print_validate_password {g : Grid} {a b c : UInt8}
    (h : validate_password g = some (a, b, c)) : print_password a b c = g := by
  obtain ⟨hsym, hcentre, hbytes⟩ := (validate_password_eq_some_iff g _).mp h
  obtain ⟨hbits, hsym', hcentre'⟩ := print_password_cells a b c
  have hlen : (triangle.map g.at).length = 24 := by rw [List.length_map, triangle_length]
  have hcode : passcode a b c = shiftIn 0 (triangle.map g.at) := by
    have hlt : shiftIn 0 (triangle.map g.at) ^^^ scramble < 2 ^ 24 :=
      Nat.xor_lt_two_pow (hlen ▸ shiftIn_lt _) (by decide)
    simp only [Prod.mk.injEq] at hbytes
    obtain ⟨rfl, rfl, rfl⟩ := hbytes
    rw [passcode, packed_eq, pack_unpack hlt, Nat.xor_assoc, Nat.xor_self, Nat.xor_zero]
  rw [hcode, ← hlen, highFirst_shiftIn] at hbits hcentre'
  have hat := List.map_inj_left.mp hbits
  apply Grid.ext_at
  intro p
  rcases mem_cells_or_centre p with hp | hp | rfl
  · exact hat p hp
  · obtain ⟨q, hq, rfl⟩ := List.mem_map.mp hp
    rw [← hsym' q hq, hat q hq, hsym q]
  · rw [hcentre', hcentre, checksum_eq]

/-- Drawing and reading are inverse to each other, and the grids that are read are those with the
symmetry of a half turn whose centre makes the parity right. -/
theorem password_grids :
    (∀ g a b c, validate_password g = some (a, b, c) ↔ print_password a b c = g) ∧
      ∀ g, (validate_password g).isSome ↔
        (∀ p, g.at p = g.at (mirror p)) ∧ (g.at (3, 3) ↔ Even (triangle.countP g.at)) := by
  constructor
  · intro g a b c
    constructor
    · exact print_validate_password
    · rintro rfl
      exact validate_print_password a b c
  · intro g
    rw [Option.isSome_iff_exists]
    simp only [validate_password_eq_some_iff, exists_and_left, exists_eq, and_true]
    rw [← Bool.coe_iff_coe, decide_eq_true_iff]

/-- The grid under the cursor after keys that only move it and toggle cells. -/
def typed (keys : List Key) : Option Grid :=
  (keys.foldlM press Cursor.corner).map (·.state)

theorem read_loop_append {keys : List Key} {cur cur' : Cursor}
    (h : keys.foldlM press cur = some cur') (rest : List Key) :
    read_loop cur (keys ++ rest) = read_loop cur' rest := by
  induction keys generalizing cur with
  | nil => rw [← Option.some.inj h, List.nil_append]
  | cons key keys ih =>
    rw [List.foldlM_cons, Option.bind_eq_bind, Option.bind_eq_some_iff] at h
    obtain ⟨cur₁, hkey, hkeys⟩ := h
    rw [List.cons_append, read_loop.eq_def]
    simp only [hkey]
    exact ih hkeys

theorem read_password_typed {keys : List Key} {g : Grid} {a b c : UInt8} (h : typed keys = some g)
    (hg : validate_password g = some (a, b, c)) (rest : List Key) :
    read_password (keys ++ .char '\n' :: rest) = .accepted a b c rest := by
  obtain ⟨cur, hkeys, rfl⟩ := Option.map_eq_some_iff.mp h
  have henter : press cur (.char '\n') = none := rfl
  rw [read_password, read_loop_append hkeys, read_loop.eq_def]
  simp only [henter, if_true]
  rw [hg]

/-- From the corner to a cell, a toggle, and back. -/
def toggleKeys (p : Spot) : List Key :=
  List.replicate p.1 (.char 's') ++ List.replicate p.2 (.char 'd') ++ [.char ' '] ++
    List.replicate p.1 (.char 'w') ++ List.replicate p.2 (.char 'a')

def Grid.toggle (g : Grid) (p : Spot) : Grid := g.put p (!g.at p)

private theorem foldlM_down (x : Fin 7) (g : Grid) (i : Fin 7) :
    (List.replicate i (.char 's')).foldlM press ⟨x, 0, g⟩ = some ⟨x, i, g⟩ := by
  fin_cases i <;> simp [List.replicate_succ, press]

private theorem foldlM_right (y : Fin 7) (g : Grid) (j : Fin 7) :
    (List.replicate j (.char 'd')).foldlM press ⟨0, y, g⟩ = some ⟨j, y, g⟩ := by
  fin_cases j <;> simp [List.replicate_succ, press]

private theorem foldlM_up (x : Fin 7) (g : Grid) (i : Fin 7) :
    (List.replicate i (.char 'w')).foldlM press ⟨x, i, g⟩ = some ⟨x, 0, g⟩ := by
  fin_cases i <;> simp [List.replicate_succ, press]

private theorem foldlM_left (y : Fin 7) (g : Grid) (j : Fin 7) :
    (List.replicate j (.char 'a')).foldlM press ⟨j, y, g⟩ = some ⟨0, y, g⟩ := by
  fin_cases j <;> simp [List.replicate_succ, press]

private theorem foldlM_toggleKeys (g : Grid) (p : Spot) :
    (toggleKeys p).foldlM press ⟨0, 0, g⟩ = some ⟨0, 0, g.toggle p⟩ := by
  simp only [toggleKeys, List.foldlM_append, foldlM_down, foldlM_right, List.foldlM_cons,
    List.foldlM_nil, Option.bind_eq_bind, Option.bind_some, press, Option.pure_def]
  rw [foldlM_up, Option.bind_some, foldlM_left]
  rfl

private theorem foldlM_flatMap_toggleKeys (ps : List Spot) (g : Grid) :
    (ps.flatMap toggleKeys).foldlM press ⟨0, 0, g⟩ = some ⟨0, 0, ps.foldl Grid.toggle g⟩ := by
  induction ps generalizing g with
  | nil => rfl
  | cons p ps ih =>
    rw [List.flatMap_cons, List.foldlM_append, foldlM_toggleKeys]
    exact ih (g.toggle p)

private theorem at_foldl_toggle (ps : List Spot) (hnd : ps.Nodup) (g : Grid) (q : Spot) :
    (ps.foldl Grid.toggle g).at q = (g.at q ^^ decide (q ∈ ps)) := by
  induction ps generalizing g with
  | nil => simp
  | cons p ps ih =>
    rw [List.nodup_cons] at hnd
    rw [List.foldl_cons, ih hnd.2, Grid.toggle, Grid.at_put]
    by_cases hq : q = p
    · subst hq
      simp [hnd.1]
    · simp [hq]

theorem exists_typed (g : Grid) : ∃ keys, typed keys = some g := by
  let spots : List Spot := (Finset.univ.filter (g.at ·)).toList
  refine ⟨spots.flatMap toggleKeys, ?_⟩
  rw [typed, Cursor.corner, foldlM_flatMap_toggleKeys, Option.map_some, Option.some.injEq]
  apply Grid.ext_at
  intro q
  rw [at_foldl_toggle spots (Finset.nodup_toList _)]
  simp [spots]

end CtfChallenges.Gman
