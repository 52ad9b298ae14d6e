import Mathlib.Data.List.Basic

/-!
# Cipher block chaining

Texts as blocks of sixteen bytes, a block cipher chained over them, the padding of PKCS #7, and the
context that encrypts a text which comes in parts.
-/

namespace CtfChallenges.Framework.Cbc

abbrev Block := { b : List UInt8 // b.length = 16 }

def zero : Block := ⟨List.replicate 16 0, List.length_replicate⟩

def xor (a b : Block) : Block :=
  ⟨List.zipWith (· ^^^ ·) a.1 b.1, by rw [List.length_zipWith, a.2, b.2, Nat.min_self]⟩

theorem xor_xor (a b : Block) : xor (xor a b) b = a := by
  obtain ⟨a, ha⟩ := a
  obtain ⟨b, hb⟩ := b
  simp only [xor, Subtype.mk.injEq]
  apply List.ext_getElem
  · rw [List.length_zipWith, List.length_zipWith, ha, hb]
    rfl
  · intro i hi hi'
    rw [List.getElem_zipWith, List.getElem_zipWith, UInt8.xor_assoc, UInt8.xor_self,
      UInt8.xor_zero]

/-- A permutation of the blocks for every key. -/
structure BlockCipher (κ : Type) where
  enc : κ → Block → Block
  dec : κ → Block → Block
  dec_enc : ∀ k b, dec k (enc k b) = b

def join (bs : List Block) : List UInt8 := (bs.map Subtype.val).flatten

@[simp] theorem join_nil : join [] = [] := rfl

@[simp] theorem join_cons (b : Block) (bs : List Block) : join (b :: bs) = b.1 ++ join bs := rfl

@[simp] theorem join_append (bs bs' : List Block) : join (bs ++ bs') = join bs ++ join bs' := by
  simp [join]

theorem length_join (bs : List Block) : (join bs).length = 16 * bs.length := by
  induction bs with
  | nil => rfl
  | cons b bs ih => rw [join_cons, List.length_append, b.2, ih, List.length_cons]; omega

/-- The complete blocks at the beginning of a text, and the rest. -/
def chop (xs : List UInt8) : List Block × List UInt8 :=
  if h : 16 ≤ xs.length then
    let p := chop (xs.drop 16)
    (⟨xs.take 16, List.length_take_of_le h⟩ :: p.1, p.2)
  else ([], xs)
termination_by xs.length
decreasing_by
  rw [List.length_drop]
  omega

theorem chop_join {rest : List UInt8} (h : rest.length < 16) (bs : List Block) :
    chop (join bs ++ rest) = (bs, rest) := by
  induction bs with
  | nil => rw [join_nil, List.nil_append, chop, dif_neg (Nat.not_le.mpr h)]
  | cons b bs ih =>
    have hle : 16 ≤ (join (b :: bs) ++ rest).length := by
      rw [join_cons, List.length_append, List.length_append, b.2]
      omega
    rw [chop, dif_pos hle]
    simp only [join_cons, List.append_assoc, List.drop_left' b.2, List.take_left' b.2, ih]

theorem join_chop (xs : List UInt8) :
    join (chop xs).1 ++ (chop xs).2 = xs ∧ (chop xs).2.length < 16 := by
  induction xs using chop.induct with
  | case1 xs h ih =>
    rw [chop, dif_pos h]
    refine ⟨?_, ih.2⟩
    simp only [join_cons, List.append_assoc]
    rw [ih.1, List.take_append_drop]
  | case2 xs h =>
    rw [chop, dif_neg h]
    exact ⟨rfl, Nat.lt_of_not_le h⟩

/-- A text that goes on has the blocks that it had, and then those of its rest. -/
theorem chop_append (xs ys : List UInt8) :
    chop (xs ++ ys) =
      ((chop xs).1 ++ (chop ((chop xs).2 ++ ys)).1, (chop ((chop xs).2 ++ ys)).2) := by
  obtain ⟨hys, hlt⟩ := join_chop ((chop xs).2 ++ ys)
  have hxs : xs ++ ys = join ((chop xs).1 ++ (chop ((chop xs).2 ++ ys)).1) ++
      (chop ((chop xs).2 ++ ys)).2 := by
    rw [join_append, List.append_assoc, hys, ← List.append_assoc, (join_chop xs).1]
  exact (congrArg chop hxs).trans (chop_join hlt _)

variable {κ : Type} (E : Block → Block) (D : Block → Block)

def cbcEncrypt : Block → List Block → List Block
  | _, [] => []
  | iv, b :: bs => E (xor b iv) :: cbcEncrypt (E (xor b iv)) bs

def cbcDecrypt : Block → List Block → List Block
  | _, [] => []
  | iv, c :: cs => xor (D c) iv :: cbcDecrypt c cs

/-- The block that the next one is chained to. -/
def chain (iv : Block) (bs : List Block) : Block := bs.foldl (fun c b => E (xor b c)) iv

theorem cbcEncrypt_append (iv : Block) (bs bs' : List Block) :
    cbcEncrypt E iv (bs ++ bs') = cbcEncrypt E iv bs ++ cbcEncrypt E (chain E iv bs) bs' := by
  induction bs generalizing iv with
  | nil => rfl
  | cons b bs ih =>
    rw [List.cons_append, cbcEncrypt, ih, cbcEncrypt, List.cons_append]
    rfl

theorem chain_append (iv : Block) (bs bs' : List Block) :
    chain E iv (bs ++ bs') = chain E (chain E iv bs) bs' :=
  List.foldl_append

@[simp] theorem length_cbcEncrypt (iv : Block) (bs : List Block) :
    (cbcEncrypt E iv bs).length = bs.length := by
  induction bs generalizing iv with
  | nil => rfl
  | cons b bs ih => rw [cbcEncrypt, List.length_cons, ih, List.length_cons]

variable {E D} in
theorem cbcDecrypt_cbcEncrypt (h : ∀ b, D (E b) = b) (iv : Block) (bs : List Block) :
    cbcDecrypt D iv (cbcEncrypt E iv bs) = bs := by
  induction bs generalizing iv with
  | nil => rfl
  | cons b bs ih => rw [cbcEncrypt, cbcDecrypt, h, xor_xor, ih]

/-- A text with the padding of PKCS #7: as many bytes as are missing, at least one, each of which
says how many there are. -/
def pad (xs : List UInt8) : List UInt8 :=
  let n := 16 - xs.length % 16
  xs ++ List.replicate n (.ofNat n)

theorem length_pad (xs : List UInt8) : (pad xs).length = xs.length + (16 - xs.length % 16) := by
  rw [pad, List.length_append, List.length_replicate]

theorem dvd_length_pad (xs : List UInt8) : 16 ∣ (pad xs).length := by
  rw [length_pad]
  omega

/-- The last byte of the padding is its length. -/
theorem getLast?_pad (xs : List UInt8) :
    (pad xs).getLast? = some (.ofNat (16 - xs.length % 16)) := by
  have hne : 16 - xs.length % 16 ≠ 0 := by omega
  simp only [pad]
  rw [List.getLast?_append_of_ne_nil _ (by simpa using hne), List.getLast?_replicate, if_neg hne]

theorem take_pad (xs : List UInt8) :
    (pad xs).take ((pad xs).length - (16 - xs.length % 16)) = xs := by
  rw [length_pad, Nat.add_sub_cancel]
  exact List.take_left

theorem join_chop_of_dvd {xs : List UInt8} (h : 16 ∣ xs.length) : join (chop xs).1 = xs := by
  obtain ⟨hjoin, hlt⟩ := join_chop xs
  have hlength := congrArg List.length hjoin
  rw [List.length_append, length_join] at hlength
  have hnone : (chop xs).2 = [] := List.length_eq_zero_iff.mp (by omega)
  rwa [hnone, List.append_nil] at hjoin

/-- The blocks of a padded text are those of the text and those of its padded rest. -/
theorem chop_pad (xs : List UInt8) :
    (chop (pad xs)).1 = (chop xs).1 ++ (chop (pad (chop xs).2)).1 := by
  obtain ⟨hjoin, hlt⟩ := join_chop xs
  have hlength := congrArg List.length hjoin
  rw [List.length_append, length_join] at hlength
  have hmod : (chop xs).2.length % 16 = xs.length % 16 := by omega
  simp only [pad, hmod]
  rw [chop_append]

/-- The context of an encryption: the block to chain to and the bytes of an incomplete block. -/
structure Context (κ : Type) where
  key : κ
  last : Block
  buf : List UInt8

variable (cipher : BlockCipher κ)

/-- What a part of the text lets it write: the blocks that are complete by then. -/
def Context.update (ctx : Context κ) (inp : List UInt8) : Context κ × List UInt8 :=
  let (bs, rest) := chop (ctx.buf ++ inp)
  ({ ctx with last := chain (cipher.enc ctx.key) ctx.last bs, buf := rest },
    join (cbcEncrypt (cipher.enc ctx.key) ctx.last bs))

/-- What the end of the text lets it write: the padded rest. -/
def Context.final (ctx : Context κ) : List UInt8 :=
  join (cbcEncrypt (cipher.enc ctx.key) ctx.last (chop (pad ctx.buf)).1)

/-- An update with a text and one with another are an update with both. -/
theorem Context.update_append (ctx : Context κ) (inp inp' : List UInt8) :
    ctx.update cipher (inp ++ inp') =
      (((ctx.update cipher inp).1.update cipher inp').1,
        (ctx.update cipher inp).2 ++ ((ctx.update cipher inp).1.update cipher inp').2) := by
  simp only [Context.update]
  rw [← List.append_assoc, chop_append, chain_append, cbcEncrypt_append, join_append]

/-- An update and the end encrypt the padded text. -/
theorem Context.update_final (k : κ) (iv : Block) (content : List UInt8) :
    let p := Context.update cipher ⟨k, iv, []⟩ content
    p.2 ++ p.1.final cipher = join (cbcEncrypt (cipher.enc k) iv (chop (pad content)).1) := by
  simp only [Context.update, Context.final, List.nil_append]
  rw [chop_pad content, cbcEncrypt_append, join_append]

theorem Context.length_final {ctx : Context κ} (h : ctx.buf.length < 16) :
    (ctx.final cipher).length = 16 := by
  have hpad := length_pad ctx.buf
  have hjoin := congrArg List.length (join_chop_of_dvd (dvd_length_pad ctx.buf))
  rw [length_join] at hjoin
  rw [Context.final, length_join, length_cbcEncrypt]
  omega

/-- What comes out of an update is shorter than the buffer and the input together. -/
theorem Context.length_update (ctx : Context κ) (inp : List UInt8) :
    (ctx.update cipher inp).2.length + (ctx.update cipher inp).1.buf.length =
      ctx.buf.length + inp.length ∧ 16 ∣ (ctx.update cipher inp).2.length ∧
      (ctx.update cipher inp).1.buf.length < 16 := by
  obtain ⟨hjoin, hlt⟩ := join_chop (ctx.buf ++ inp)
  have hlength := congrArg List.length hjoin
  simp only [List.length_append, length_join] at hlength
  simp only [Context.update, length_join, length_cbcEncrypt]
  exact ⟨hlength, Nat.dvd_mul_right 16 _, hlt⟩

end CtfChallenges.Framework.Cbc
