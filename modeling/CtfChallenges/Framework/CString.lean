import CtfChallenges.Framework.Ascii
import Mathlib.Algebra.Order.Group.Nat
import Mathlib.Data.List.TakeWhile

/-!
# Strings in C

A block of memory as the list of its bytes, pointers into it as offsets, and the string at a pointer
as the bytes before the next zero. `none` is an access outside of the block.
-/

namespace CtfChallenges.Framework.CString

abbrev Mem := List UInt8

/-- `*p = b` -/
def store (mem : Mem) (p : Nat) (b : UInt8) : Option Mem :=
  if p < mem.length then some (mem.set p b) else none

/-- `bs` written over the block from `p` on. -/
def overwrite (mem : Mem) (p : Nat) (bs : List UInt8) : Mem :=
  mem.take p ++ bs ++ mem.drop (p + bs.length)

/-- The string at `p`, without its terminator. -/
def cstr (mem : Mem) (p : Nat) : Option (List UInt8) :=
  if 0 ∈ mem.drop p then some ((mem.drop p).takeWhile (· ≠ 0)) else none

/-- `strchr(p, c)` for a character other than the terminator, with `none` inside for `NULL`. -/
def strchr (mem : Mem) (p : Nat) (c : UInt8) : Option (Option Nat) := do
  let s ← cstr mem p
  return if c ∈ s then some (p + s.idxOf c) else none

/-- `strtok` with one separator, at the place where it was called or has stopped. The results are the
token, the block, and the place for the next call. -/
def strtok (mem : Mem) (p : Nat) (delim : UInt8) : Option (Option Nat × Mem × Nat) := do
  let s ← cstr mem p
  let start := p + (s.takeWhile (· = delim)).length
  let token := (s.dropWhile (· = delim)).takeWhile (· ≠ delim)
  let stop := start + token.length
  if token = [] then return (none, mem, start)
  else if stop = p + s.length then return (some start, mem, stop)
  else return (some start, ← store mem stop 0, stop + 1)

/-- What `strncpy` writes: `n` bytes, the string cut or filled up with zeros. -/
def padded (s : List UInt8) (n : Nat) : List UInt8 := s.take n ++ List.replicate (n - s.length) 0

/-- `strncpy(p, s, n)` -/
def strncpy (mem : Mem) (p : Nat) (s : List UInt8) (n : Nat) : Option Mem :=
  if p + n ≤ mem.length then some (overwrite mem p (padded s n)) else none

/-- The bytes from `p` on begin with a string and its terminator. -/
def StringAt (mem : Mem) (p : Nat) (s : List UInt8) : Prop :=
  0 ∉ s ∧ ∃ rest, mem.drop p = s ++ 0 :: rest

section
variable {mem : Mem} {p q : Nat} {bs : List UInt8}

@[simp] theorem overwrite_nil : overwrite mem p [] = mem := by
  simp [overwrite]

@[simp] theorem length_overwrite (h : p + bs.length ≤ mem.length) :
    (overwrite mem p bs).length = mem.length := by
  simp only [overwrite, List.length_append, List.length_take, List.length_drop]
  omega

theorem take_overwrite (hp : p ≤ mem.length) (hq : q ≤ p) :
    (overwrite mem p bs).take q = mem.take q := by
  rw [overwrite, List.append_assoc, List.take_append_of_le_length (by simp; omega), List.take_take,
    Nat.min_eq_left hq]

theorem drop_overwrite_self (hp : p ≤ mem.length) (bs : List UInt8) :
    (overwrite mem p bs).drop p = bs ++ mem.drop (p + bs.length) := by
  rw [overwrite, List.append_assoc, List.drop_left' (by simp [hp])]

/-- What lies behind the bytes that are written stays. -/
theorem drop_overwrite (hp : p ≤ mem.length) (hq : p + bs.length ≤ q) :
    (overwrite mem p bs).drop q = mem.drop q := by
  have hlen : (mem.take p ++ bs).length = p + bs.length := by simp [hp]
  rw [overwrite, List.drop_append, List.drop_eq_nil_of_le (by omega), hlen, List.nil_append,
    List.drop_drop]
  congr 1
  omega

theorem overwrite_append (hp : p ≤ mem.length) (cs : List UInt8) :
    overwrite mem p (bs ++ cs) = overwrite (overwrite mem p bs) (p + bs.length) cs := by
  have htake : (overwrite mem p bs).take (p + bs.length) = mem.take p ++ bs := by
    rw [overwrite, List.take_left' (by simp [hp])]
  rw [overwrite.eq_def (overwrite mem p bs), htake, drop_overwrite hp (Nat.le_add_right _ _),
    overwrite]
  simp [Nat.add_assoc]

theorem store_eq (hp : p < mem.length) (b : UInt8) : store mem p b = some (overwrite mem p [b]) := by
  rw [store, if_pos hp, List.set_eq_take_append_cons_drop, if_pos hp]
  simp [overwrite]

@[simp] theorem length_padded (s : List UInt8) (n : Nat) : (padded s n).length = n := by
  rw [padded, List.length_append, List.length_take, List.length_replicate]
  omega

end

section
variable {mem mem' : Mem} {p : Nat} {s : List UInt8}

theorem takeWhile_ne {c : UInt8} (h : c ∉ s) : s.takeWhile (· ≠ c) = s := by
  apply List.takeWhile_eq_self_iff.mpr
  intro d hd
  have hne : d ≠ c := fun heq => h (heq ▸ hd)
  simpa using hne

theorem stringAt_takeWhile {rest : List UInt8} (h : mem.drop p = s ++ 0 :: rest) :
    StringAt mem p (s.takeWhile (· ≠ 0)) := by
  refine ⟨fun hmem => ?_, ?_⟩
  · have hne := List.mem_takeWhile_imp hmem
    simp at hne
  · rw [h]
    clear h
    induction s with
    | nil => exact ⟨rest, rfl⟩
    | cons c s ih =>
      by_cases hc : c = 0
      · exact ⟨s ++ 0 :: rest, by simp [hc]⟩
      · obtain ⟨rest', heq⟩ := ih
        exact ⟨rest', by rw [List.takeWhile_cons_of_pos (by simpa using hc), List.cons_append, heq,
          List.cons_append]⟩

theorem cstr_eq_some (h : StringAt mem p s) : cstr mem p = some s := by
  obtain ⟨hs, rest, hdrop⟩ := h
  have hmem : (0 : UInt8) ∈ mem.drop p := by simp [hdrop]
  have hall : ∀ c ∈ s, decide (c ≠ 0) = true := by
    rw [← List.takeWhile_eq_self_iff]
    exact takeWhile_ne hs
  rw [cstr, if_pos hmem, hdrop, List.takeWhile_append_of_pos hall,
    List.takeWhile_cons_of_neg (by simp), List.append_nil]

theorem cstr_of_drop {rest : List UInt8} (h : mem.drop p = s ++ 0 :: rest) :
    cstr mem p = some (s.takeWhile (· ≠ 0)) :=
  cstr_eq_some (stringAt_takeWhile h)

theorem StringAt.length_lt (h : StringAt mem p s) : p + s.length < mem.length := by
  obtain ⟨-, rest, hdrop⟩ := h
  have hlen := congrArg List.length hdrop
  simp only [List.length_drop, List.length_append, List.length_cons] at hlen
  omega

theorem StringAt.congr (h : StringAt mem p s) (hdrop : mem'.drop p = mem.drop p) :
    StringAt mem' p s := by
  rw [StringAt, hdrop]
  exact h

theorem StringAt.drop {t : List UInt8} (h : StringAt mem p (t ++ s)) :
    StringAt mem (p + t.length) s := by
  obtain ⟨hs, rest, hdrop⟩ := h
  refine ⟨fun hmem => hs (List.mem_append_right _ hmem), rest, ?_⟩
  rw [← List.drop_drop, hdrop, List.append_assoc, List.drop_left]

/-- Bytes stay where they are as long as the block does not change before their end. -/
theorem prefix_of_take {bs : List UInt8} {q : Nat} (h : bs <+: mem.drop p)
    (hq : p + bs.length ≤ q) (htake : mem'.take q = mem.take q) : bs <+: mem'.drop p := by
  rw [List.prefix_iff_eq_take] at h ⊢
  have hsame : mem'.take (p + bs.length) = mem.take (p + bs.length) := by
    rw [← Nat.min_eq_left hq, ← List.take_take, htake, List.take_take]
  rwa [List.take_drop, hsame, ← List.take_drop]

theorem stringAt_iff : StringAt mem p s ↔ 0 ∉ s ∧ s ++ [0] <+: mem.drop p := by
  rw [StringAt, and_congr_right_iff]
  intro _
  constructor
  · rintro ⟨rest, h⟩
    exact ⟨rest, by simp [h]⟩
  · rintro ⟨rest, h⟩
    exact ⟨rest, by simp [← h]⟩

/-- A string that ends before `q` stays when only bytes from `q` on are written. -/
theorem StringAt.of_take {q : Nat} (h : StringAt mem p s) (hq : p + s.length + 1 ≤ q)
    (htake : mem'.take q = mem.take q) : StringAt mem' p s := by
  rw [stringAt_iff] at h ⊢
  exact ⟨h.1, prefix_of_take h.2 (by simpa [← Nat.add_assoc] using hq) htake⟩

/-- A terminator behind the `n` bytes, and they are a string also where the copy has been cut. -/
theorem stringAt_padded {n : Nat} (hp : p ≤ mem.length) (hs : 0 ∉ s) :
    StringAt (overwrite mem p (padded s n ++ [0])) p (s.take n) := by
  refine ⟨fun hmem => hs (List.mem_of_mem_take hmem), ?_⟩
  rw [drop_overwrite_self hp, padded, List.append_assoc, List.append_assoc]
  -- the zeros that fill the copy up, or the one behind it
  cases n - s.length with
  | zero => exact ⟨_, rfl⟩
  | succ k => exact ⟨_, rfl⟩

/-- A terminator in place of a character makes two strings of one. -/
theorem StringAt.cut {c : UInt8} {t : List UInt8} (h : StringAt mem p (s ++ c :: t)) :
    StringAt (overwrite mem (p + s.length) [0]) p s ∧
      StringAt (overwrite mem (p + s.length) [0]) (p + s.length + 1) t := by
  have hlen := h.length_lt
  simp only [List.length_append, List.length_cons] at hlen
  have hp : p + s.length ≤ mem.length := by omega
  have hback : StringAt mem (p + s.length + 1) t := by
    have hdrop := StringAt.drop (t := s ++ [c]) (s := t) (by simpa using h)
    simpa [Nat.add_assoc] using hdrop
  constructor
  · obtain ⟨hs, rest, hdrop⟩ := h
    have hfront : s <+: (overwrite mem (p + s.length) [0]).drop p :=
      prefix_of_take ⟨c :: t ++ 0 :: rest, by simp [hdrop]⟩ (Nat.le_refl _)
        (take_overwrite hp (Nat.le_refl _))
    obtain ⟨u, hu⟩ := hfront
    have hzero : u = 0 :: mem.drop (p + s.length + 1) := by
      have hself := drop_overwrite_self hp [0]
      rw [← List.drop_drop, ← hu, List.drop_left] at hself
      simpa using hself
    refine ⟨fun hmem => hs (List.mem_append_left _ hmem), mem.drop (p + s.length + 1), ?_⟩
    rw [← hu, hzero]
  · exact hback.congr (drop_overwrite hp (Nat.le_refl _))

section
variable {delim : UInt8} {front token t : List UInt8}

theorem takeWhile_ne_append {c : UInt8} (h : c ∉ s) (t : List UInt8) :
    (s ++ c :: t).takeWhile (· ≠ c) = s := by
  rw [List.takeWhile_append_of_pos, List.takeWhile_cons_of_neg (by simp), List.append_nil]
  rw [← List.takeWhile_eq_self_iff]
  exact takeWhile_ne h

theorem strchr_of_not_mem {c : UInt8} (h : StringAt mem p s) (hc : c ∉ s) :
    strchr mem p c = some none := by
  simp [strchr, cstr_eq_some h, hc]

theorem strchr_split {c : UInt8} {front : List UInt8} (h : StringAt mem p (front ++ c :: t))
    (hc : c ∉ front) : strchr mem p c = some (some (p + front.length)) := by
  simp [strchr, cstr_eq_some h, List.idxOf_append, hc]

theorem strtok_of_front (hfront : ∀ c ∈ front, c = delim) (hne : token ≠ [])
    (htoken : delim ∉ token) (t : List UInt8) :
    (front ++ (token ++ t)).takeWhile (· = delim) = front ∧
      (front ++ (token ++ t)).dropWhile (· = delim) = token ++ t := by
  have hpos : ∀ c ∈ front, decide (c = delim) = true := by simpa using hfront
  cases token with
  | nil => exact absurd rfl hne
  | cons c token =>
    have hc : c ≠ delim := fun heq => htoken (heq ▸ List.mem_cons_self)
    rw [List.takeWhile_append_of_pos hpos, List.dropWhile_append_of_pos hpos, List.cons_append,
      List.takeWhile_cons_of_neg (by simpa using hc), List.dropWhile_cons_of_neg (by simpa using hc)]
    simp

/-- The token at the end of the string: nothing is written. -/
theorem strtok_last (h : StringAt mem p (front ++ token)) (hfront : ∀ c ∈ front, c = delim)
    (hne : token ≠ []) (htoken : delim ∉ token) :
    strtok mem p delim =
      some (some (p + front.length), mem, p + front.length + token.length) := by
  obtain ⟨htake, hdrop⟩ := strtok_of_front hfront hne htoken []
  rw [List.append_nil] at htake hdrop
  simp only [strtok, cstr_eq_some h, Option.bind_eq_bind, Option.bind_some, htake, hdrop,
    takeWhile_ne htoken, if_neg hne]
  rw [if_pos (by simp [Nat.add_assoc])]
  rfl

theorem strtok_cut (h : StringAt mem p (front ++ (token ++ delim :: t)))
    (hfront : ∀ c ∈ front, c = delim) (hne : token ≠ []) (htoken : delim ∉ token) :
    strtok mem p delim = some (some (p + front.length),
      overwrite mem (p + front.length + token.length) [0],
      p + front.length + token.length + 1) := by
  obtain ⟨htake, hdrop⟩ := strtok_of_front hfront hne htoken (delim :: t)
  have hlen := h.length_lt
  simp only [List.length_append, List.length_cons] at hlen
  simp only [strtok, cstr_eq_some h, Option.bind_eq_bind, Option.bind_some, htake, hdrop,
    takeWhile_ne_append htoken, if_neg hne]
  rw [if_neg (by simp; omega), store_eq (by omega)]
  rfl

end

end

end CtfChallenges.Framework.CString
