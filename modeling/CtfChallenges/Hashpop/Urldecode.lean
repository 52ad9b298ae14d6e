import CtfChallenges.Framework.CString
import CtfChallenges.Framework.Ascii

/-!
# Percent-encoding in hashpop

`urldecode.c` decodes a string in the place where it stands. One pointer reads, another writes, and
each write is noted with the places of both.
-/

namespace CtfChallenges.Hashpop
open Framework CString

/-- The value of a digit, with no value for -1. -/
def nibble (c : UInt8) : Option Nat :=
  if 0x30 ≤ c ∧ c ≤ 0x39 then some (c.toNat - 0x30)
  else if 0x61 ≤ c ∧ c ≤ 0x66 then some (c.toNat - 0x61 + 10)
  else if 0x41 ≤ c ∧ c ≤ 0x46 then some (c.toNat - 0x41 + 10)
  else none

/-- `(char)((u << 4) | l)` -/
def joinNibbles (u l : Nat) : UInt8 := UInt8.ofNat (u <<< 4 ||| l)

/-- A write at `p` while the next byte to read is at `s`. -/
structure Write where
  p : Nat
  s : Nat
  deriving DecidableEq, Repr

/-- The block with the pointers `s` for reading and `p` for writing, and the writes so far. -/
structure Cursors where
  mem : Mem
  s : Nat
  p : Nat
  writes : List Write

/-- `*p++ = b` -/
def Cursors.put (c : Cursors) (b : UInt8) : Option Cursors :=
  (store c.mem c.p b).map fun mem => ⟨mem, c.s, c.p + 1, c.writes ++ [⟨c.p, c.s⟩]⟩

/-- `s++` -/
def Cursors.skip (c : Cursors) : Cursors := { c with s := c.s + 1 }

/-- The loop, for at most `fuel` passes. Each pass but the last reads at least one byte, so the size
of the block is enough (`decodeLoop_eq`). -/
def decodeLoop : Nat → Cursors → Option Cursors
  | 0, _ => none
  | fuel + 1, c => do
    let x ← c.mem[c.s]?
    if x = 0 then return c
    else if x = 0x2b then
      let c ← c.skip.put 0x20
      decodeLoop fuel c
    else if x = 0x25 then
      let c := c.skip
      let y ← c.mem[c.s]?
      if y = 0 then c.put 0x25
      else
        let u := nibble y
        let c := c.skip
        let z ← c.mem[c.s]?
        if z = 0 then
          let c ← c.put 0x25
          c.put y
        else
          let l := nibble z
          let c := c.skip
          match u, l with
          | some u, some l =>
            let c ← c.put (joinNibbles u l)
            decodeLoop fuel c
          | _, _ =>
            let c ← c.put 0x25
            let c ← c.put y
            let c ← c.put z
            decodeLoop fuel c
    else
      let c ← c.skip.put x
      decodeLoop fuel c

/-- `urldecode` of the string at `start`: the block and the writes, and the value returned. -/
def urldecode (mem : Mem) (start : Nat) : Option (Cursors × Nat) := do
  let c ← decodeLoop mem.length ⟨mem, start, start, []⟩
  let mem ← store c.mem c.p 0
  return (⟨mem, c.s, c.p, c.writes ++ [⟨c.p, c.s⟩]⟩, c.p - start)

/-- The bytes that the loop writes when it has another buffer for them. -/
def decoded : List UInt8 → List UInt8
  | [] => []
  | x :: s =>
    if x = 0x2b then 0x20 :: decoded s
    else if x = 0x25 then
      match s with
      | [] => [0x25]
      | [y] => [0x25, y]
      | y :: z :: s =>
        match nibble y, nibble z with
        | some u, some l => joinNibbles u l :: decoded s
        | _, _ => 0x25 :: y :: z :: decoded s
    else x :: decoded s

/-- `e` is an encoding of `b`: bytes that stand for themselves, a plus for a space, and two
hexadecimal digits for any byte. -/
inductive Encodes : List UInt8 → List UInt8 → Prop
  | nil : Encodes [] []
  | literal {x : UInt8} {e b : List UInt8} :
      x ≠ 0x25 → x ≠ 0x2b → x ≠ 0 → Encodes e b → Encodes (x :: e) (x :: b)
  | plus {e b : List UInt8} : Encodes e b → Encodes (0x2b :: e) (0x20 :: b)
  | escape {y z : UInt8} {u l : Nat} {e b : List UInt8} :
      Hex.fromHexChar y = some u → Hex.fromHexChar z = some l → Encodes e b →
        Encodes (0x25 :: y :: z :: e) (UInt8.ofNat (16 * u + l) :: b)

/-- The loop in the middle of a string: `out` has been written from `start` on, `t` is left to read,
and at least `k` bytes that have been read are not written over yet. -/
structure Reading (block : Mem) (start last k : Nat) (out t : List UInt8) (c : Cursors) : Prop where
  mem : c.mem = overwrite block start out
  p : c.p = start + out.length
  behind : c.p + k ≤ c.s
  string : StringAt block c.s t
  ends : c.s + t.length = last
  writes : ∀ w ∈ c.writes, start ≤ w.p ∧ w.p ≤ w.s ∧ w.s ≤ last

section
variable {block : Mem} {start last k : Nat} {out t : List UInt8} {x : UInt8} {c : Cursors}

/-- Reading is not disturbed by what has been written. -/
theorem Reading.drop_eq (h : Reading block start last k out t c) : c.mem.drop c.s = block.drop c.s := by
  have hlen := h.string.length_lt
  have hbehind := h.behind
  rw [h.p] at hbehind
  rw [h.mem, drop_overwrite (by omega) (by omega)]

theorem Reading.read_nil (h : Reading block start last k out [] c) : c.mem[c.s]? = some 0 := by
  obtain ⟨-, rest, hdrop⟩ := h.string
  rw [← List.head?_drop, h.drop_eq, hdrop]
  rfl

theorem Reading.read_cons (h : Reading block start last k out (x :: t) c) :
    c.mem[c.s]? = some x ∧ x ≠ 0 := by
  obtain ⟨hnul, rest, hdrop⟩ := h.string
  rw [← List.head?_drop, h.drop_eq, hdrop]
  exact ⟨rfl, fun hx => hnul (hx ▸ List.mem_cons_self)⟩

theorem Reading.skip (h : Reading block start last k out (x :: t) c) :
    Reading block start last (k + 1) out t c.skip where
  mem := h.mem
  p := h.p
  behind := Nat.succ_le_succ h.behind
  string := StringAt.drop (t := [x]) h.string
  ends := by
    have hends := h.ends
    simp only [List.length_cons] at hends
    simp only [Cursors.skip]
    omega
  writes := h.writes

theorem Reading.put (h : Reading block start last (k + 1) out t c) (b : UInt8) :
    ∃ c', c.put b = some c' ∧ Reading block start last k (out ++ [b]) t c' := by
  have hlen := h.string.length_lt
  have hbehind := h.behind
  have hp := h.p
  have hroom : start + out.length ≤ block.length := by omega
  refine ⟨⟨overwrite c.mem c.p [b], c.s, c.p + 1, c.writes ++ [⟨c.p, c.s⟩]⟩, ?_, ?_⟩
  · rw [Cursors.put, store_eq, Option.map_some]
    rw [h.mem, length_overwrite hroom]
    omega
  · constructor
    · rw [overwrite_append (by omega), h.mem, h.p]
    · rw [List.length_append, ← Nat.add_assoc, ← h.p]
      rfl
    · simp only
      omega
    · exact h.string
    · exact h.ends
    · have hends := h.ends
      rw [List.forall_mem_append, List.forall_mem_singleton]
      refine ⟨h.writes, ?_⟩
      simp only
      omega

theorem Reading.weaken (h : Reading block start last (k + 1) out t c) :
    Reading block start last k out t c :=
  { h with behind := (Nat.le_succ _).trans h.behind }

/-- The loop writes the decoded string and reads to the end. -/
theorem decodeLoop_eq {fuel : Nat} (h : Reading block start last 0 out t c)
    (hfuel : t.length < fuel) :
    ∃ c', decodeLoop fuel c = some c' ∧ Reading block start last 0 (out ++ decoded t) [] c' := by
  fun_induction decoded t generalizing out c fuel with
  | case1 =>
    obtain ⟨fuel, rfl⟩ := Nat.exists_eq_succ_of_ne_zero (Nat.ne_of_gt hfuel)
    exact ⟨c, by simp [decodeLoop, h.read_nil], by simpa using h⟩
  | case2 t ih =>
    obtain ⟨fuel, rfl⟩ := Nat.exists_eq_succ_of_ne_zero (Nat.ne_zero_of_lt hfuel)
    obtain ⟨c₁, hput, h₁⟩ := h.skip.put 0x20
    obtain ⟨c', hloop, h'⟩ := ih h₁ (Nat.lt_of_succ_lt_succ hfuel)
    refine ⟨c', ?_, by simpa using h'⟩
    simp [decodeLoop, h.read_cons.1, hput, hloop]
  | case3 =>
    obtain ⟨fuel, rfl⟩ := Nat.exists_eq_succ_of_ne_zero (Nat.ne_zero_of_lt hfuel)
    obtain ⟨c', hput, h'⟩ := h.skip.put 0x25
    refine ⟨c', ?_, h'⟩
    simp [decodeLoop, h.read_cons.1, h.skip.read_nil, hput]
  | case4 =>
    rename_i y _
    obtain ⟨fuel, rfl⟩ := Nat.exists_eq_succ_of_ne_zero (Nat.ne_zero_of_lt hfuel)
    obtain ⟨c₁, hput, h₁⟩ := h.skip.skip.put 0x25
    obtain ⟨c', hput', h'⟩ := h₁.put y
    refine ⟨c', ?_, by simpa using h'⟩
    simp [decodeLoop, h.read_cons.1, h.skip.read_cons, h.skip.skip.read_nil, hput, hput']
  | case5 y z t u l hl hu _ ih =>
    obtain ⟨fuel, rfl⟩ := Nat.exists_eq_succ_of_ne_zero (Nat.ne_zero_of_lt hfuel)
    have hread := h.skip.skip
    obtain ⟨c₁, hput, h₁⟩ := hread.skip.weaken.weaken.put (joinNibbles u l)
    have hlt : t.length < fuel := by
      simp only [List.length_cons] at hfuel
      omega
    obtain ⟨c', hloop, h'⟩ := ih h₁ hlt
    refine ⟨c', ?_, by simpa using h'⟩
    simp [decodeLoop, h.read_cons.1, h.skip.read_cons, hread.read_cons, hu, hl, hput, hloop]
  | case6 y z t hbad _ ih =>
    obtain ⟨fuel, rfl⟩ := Nat.exists_eq_succ_of_ne_zero (Nat.ne_zero_of_lt hfuel)
    have hread := h.skip.skip
    obtain ⟨c₁, hput₁, h₁⟩ := hread.skip.put 0x25
    obtain ⟨c₂, hput₂, h₂⟩ := h₁.put y
    obtain ⟨c₃, hput₃, h₃⟩ := h₂.put z
    have hlt : t.length < fuel := by
      simp only [List.length_cons] at hfuel
      omega
    obtain ⟨c', hloop, h'⟩ := ih h₃ hlt
    refine ⟨c', ?_, by simpa using h'⟩
    simp [decodeLoop, h.read_cons, h.skip.read_cons, hread.read_cons, hput₁, hput₂, hput₃, hloop]
  | case7 x t hplus hpercent ih =>
    obtain ⟨fuel, rfl⟩ := Nat.exists_eq_succ_of_ne_zero (Nat.ne_zero_of_lt hfuel)
    obtain ⟨c₁, hput, h₁⟩ := h.skip.put x
    obtain ⟨c', hloop, h'⟩ := ih h₁ (Nat.lt_of_succ_lt_succ hfuel)
    refine ⟨c', ?_, by simpa using h'⟩
    simp [decodeLoop, h.read_cons, hplus, hpercent, hput, hloop]

end

theorem length_decoded (t : List UInt8) : (decoded t).length ≤ t.length := by
  fun_induction decoded t <;> simp only [List.length_cons, List.length_nil] <;> omega

/-- `urldecode` writes the decoded string over the encoded one, and stays in it. -/
theorem urldecode_eq {mem : Mem} {start : Nat} {t : List UInt8} (h : StringAt mem start t) :
    ∃ c, urldecode mem start = some (c, (decoded t).length) ∧
      c.mem = overwrite mem start (decoded t ++ [0]) ∧
      ∀ w ∈ c.writes, start ≤ w.p ∧ w.p ≤ w.s ∧ w.s ≤ start + t.length := by
  have hlen := h.length_lt
  have hdecoded := length_decoded t
  have hstart : Reading mem start (start + t.length) 0 [] t ⟨mem, start, start, []⟩ :=
    ⟨by simp, by simp, Nat.le_refl _, h, rfl, by simp⟩
  obtain ⟨c, hloop, hc⟩ := decodeLoop_eq hstart (show t.length < mem.length by omega)
  have hp := hc.p
  have hs := hc.ends
  rw [List.nil_append] at hp
  rw [List.length_nil, Nat.add_zero] at hs
  have hroom : c.p < c.mem.length := by
    rw [hc.mem, List.nil_append, length_overwrite (by omega)]
    omega
  refine ⟨⟨overwrite c.mem c.p [0], c.s, c.p, c.writes ++ [⟨c.p, c.s⟩]⟩, ?_, ?_, ?_⟩
  · rw [urldecode, hloop, Option.bind_eq_bind, Option.bind_some, store_eq hroom]
    simp [hp]
  · rw [overwrite_append (by omega), hc.mem, hp, List.nil_append]
  · rw [List.forall_mem_append, List.forall_mem_singleton]
    exact ⟨hc.writes, by simp only; omega⟩

theorem nibble_eq (c : UInt8) : nibble c = Hex.fromHexChar c := by
  simp only [nibble, Hex.fromHexChar, UInt8.le_iff_toNat_le, UInt8.reduceToNat]
  split
  · rfl
  · split
    · rw [Option.some.injEq]
      omega
    · split
      · rw [Option.some.injEq]
        omega
      · rfl

theorem fromHexChar_lt {c : UInt8} {d : Nat} (h : Hex.fromHexChar c = some d) : d < 16 := by
  simp only [Hex.fromHexChar, UInt8.le_iff_toNat_le, UInt8.reduceToNat] at h
  split at h
  · cases h
    omega
  · split at h
    · cases h
      omega
    · split at h
      · cases h
        omega
      · cases h

theorem joinNibbles_eq (u : Nat) {l : Nat} (hl : l < 16) :
    joinNibbles u l = UInt8.ofNat (16 * u + l) := by
  rw [joinNibbles, ← Nat.shiftLeft_add_eq_or_of_lt hl, Nat.shiftLeft_eq, Nat.mul_comm]

theorem Encodes.nul_not_mem {e b : List UInt8} (h : Encodes e b) : 0 ∉ e := by
  induction h with
  | nil => simp
  | literal _ _ hnul _ ih => simp [ih, Ne.symm hnul]
  | plus _ ih => simp [ih]
  | escape hu hl _ ih =>
    have hdigit : Hex.fromHexChar 0 = none := rfl
    simp only [List.mem_cons, not_or]
    refine ⟨by decide, ?_, ?_, ih⟩
    · rintro rfl
      rw [hdigit] at hu
      cases hu
    · rintro rfl
      rw [hdigit] at hl
      cases hl

theorem Encodes.decoded_eq {e b : List UInt8} (h : Encodes e b) : decoded e = b := by
  induction h with
  | nil => rfl
  | literal hpercent hplus _ _ ih => rw [decoded.eq_def, ← ih]; simp [hplus, hpercent]
  | plus _ ih => rw [decoded.eq_def, ← ih]; simp
  | escape hu hl _ ih =>
    rw [decoded.eq_def, ← ih, ← joinNibbles_eq _ (fromHexChar_lt hl)]
    rw [← nibble_eq] at hu hl
    simp [hu, hl]

/-- From every encoding of bytes, `urldecode` makes these bytes and a terminator, in the same place,
and returns their number. On any string in a block it leaves what it would have written to another
buffer, and it writes over nothing but bytes of the string that have been read, or its terminator. -/
theorem urldecode_in_place :
    (∀ mem start e b rest, Encodes e b → mem.drop start = e ++ 0 :: rest →
      ∃ c, urldecode mem start = some (c, b.length) ∧
        c.mem = mem.take start ++ b ++ 0 :: mem.drop (start + b.length + 1)) ∧
      ∀ mem start t, StringAt mem start t → ∃ c, urldecode mem start = some (c, (decoded t).length) ∧
        c.mem = mem.take start ++ decoded t ++ 0 :: mem.drop (start + (decoded t).length + 1) ∧
        ∀ w ∈ c.writes, start ≤ w.p ∧ w.p ≤ w.s ∧ w.s ≤ start + t.length := by
  have hstring : ∀ mem start t, StringAt mem start t →
      ∃ c, urldecode mem start = some (c, (decoded t).length) ∧
        c.mem = mem.take start ++ decoded t ++ 0 :: mem.drop (start + (decoded t).length + 1) ∧
        ∀ w ∈ c.writes, start ≤ w.p ∧ w.p ≤ w.s ∧ w.s ≤ start + t.length := by
    intro mem start t h
    obtain ⟨c, hrun, hmem, hwrites⟩ := urldecode_eq h
    refine ⟨c, hrun, ?_, hwrites⟩
    rw [hmem, overwrite]
    simp [Nat.add_assoc]
  refine ⟨fun mem start e b rest hb hdrop => ?_, hstring⟩
  obtain ⟨c, hrun, hmem, -⟩ := hstring mem start e ⟨hb.nul_not_mem, rest, hdrop⟩
  rw [hb.decoded_eq] at hrun hmem
  exact ⟨c, hrun, hmem⟩

end CtfChallenges.Hashpop
