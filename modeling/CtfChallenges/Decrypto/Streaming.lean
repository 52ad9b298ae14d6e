import CtfChallenges.Decrypto.Crypto
import CtfChallenges.Framework.Keystream
import Mathlib.Logic.Equiv.Defs

/-!
# How a message is cut makes no difference

An object reads its keystream block by block and keeps what is left of the last block. Successive
calls of `encrypt` therefore give what one call gives for the whole message.
-/

namespace CtfChallenges.Decrypto
open Framework Framework.Blocks Framework.Keystream

variable {S σ : Type}

/-- The object is a reader of the generator, up to the names of its fields. -/
structure Reads (M : Methods S) (next : σ → Option (List UInt8 × σ)) (view : S ≃ Reader σ UInt8) :
    Prop where
  buf : ∀ self, M.buf self = (view self).buf
  set_buf : ∀ self buf, M.set_buf self buf = view.symm ⟨(view self).gen, buf⟩
  extend_buf : ∀ self, M._extend_buf self =
    (next (view self).gen).map fun p => view.symm ⟨p.2, (view self).buf ++ p.1⟩

theorem Reads.extend_until {M : Methods S} {next : σ → Option (List UInt8 × σ)}
    {view : S ≃ Reader σ UInt8} (h : Reads M next view) (nbytes fuel : Nat) (self : S) :
    extend_until M nbytes fuel self = (fill next nbytes fuel (view self)).map view.symm := by
  induction fuel generalizing self with
  | zero => rfl
  | succ fuel ih =>
    rw [Decrypto.extend_until, fill, h.buf]
    split
    · rw [h.extend_buf]
      cases hnext : next (view self).gen with
      | none => rfl
      | some p =>
        simp only [Option.map_some, Option.bind_eq_bind, Option.bind_some]
        rw [ih, view.apply_symm_apply]
    · rw [Option.map_some, view.symm_apply_apply]

theorem Reads.get_bytes {M : Methods S} {next : σ → Option (List UInt8 × σ)}
    {view : S ≃ Reader σ UInt8} (h : Reads M next view) (fuel nbytes : Nat) (self : S) :
    get_bytes M fuel nbytes self =
      (readN next fuel nbytes (view self)).map (Prod.map id view.symm) := by
  rw [Decrypto.get_bytes, readN, h.extend_until]
  cases fill next nbytes fuel (view self) with
  | none => rfl
  | some r =>
    simp only [Option.map_some, Option.bind_eq_bind, Option.bind_some, h.buf, h.set_buf,
      view.apply_symm_apply]
    rfl

private theorem Reads.get_bytes_iff {M : Methods S} {next : σ → Option (List UInt8 × σ)}
    {view : S ≃ Reader σ UInt8} (h : Reads M next view) (fuel nbytes : Nat) (self self' : S)
    (stream : List UInt8) :
    Decrypto.get_bytes M fuel nbytes self = some (stream, self') ↔
      readN next fuel nbytes (view self) = some (stream, view self') := by
  rw [h.get_bytes, Option.map_eq_some_iff]
  constructor
  · intro ⟨⟨stream', r⟩, hread, heq⟩
    cases heq
    rw [hread, view.apply_symm_apply]
    rfl
  · intro hread
    refine ⟨_, hread, ?_⟩
    rw [Prod.map_apply, view.symm_apply_apply]
    rfl

private theorem encrypt_eq_some {M : Methods S} {fuel : Nat} {buf out : List UInt8} {self self' : S}
    (h : encrypt M fuel buf self = some (out, self')) :
    ∃ stream, get_bytes M fuel buf.length self = some (stream, self') ∧
      out = List.zipWith (· ^^^ ·) buf stream := by
  obtain ⟨⟨stream, self₁⟩, hstream, hrest⟩ := Option.bind_eq_some_iff.mp h
  cases hrest
  exact ⟨stream, hstream, rfl⟩

private theorem encrypt_of_get_bytes {M : Methods S} {fuel : Nat} {stream : List UInt8}
    {self self' : S} (buf : List UInt8)
    (h : get_bytes M fuel buf.length self = some (stream, self')) :
    encrypt M fuel buf self = some (List.zipWith (· ^^^ ·) buf stream, self') := by
  rw [encrypt, h]
  rfl

theorem Reads.encrypt_append {M : Methods S} {next : σ → Option (List UInt8 × σ)}
    {view : S ≃ Reader σ UInt8} (h : Reads M next view) {fuel fuel' : Nat}
    {buf buf' out out' : List UInt8} {self self₁ self₂ : S}
    (hfirst : encrypt M fuel buf self = some (out, self₁))
    (hsecond : encrypt M fuel' buf' self₁ = some (out', self₂)) :
    encrypt M (fuel + fuel') (buf ++ buf') self = some (out ++ out', self₂) := by
  obtain ⟨stream, hstream, rfl⟩ := encrypt_eq_some hfirst
  obtain ⟨stream', hstream', rfl⟩ := encrypt_eq_some hsecond
  rw [h.get_bytes_iff] at hstream hstream'
  have hlength : stream.length = buf.length := (readN_spec hstream).1
  have hboth := readN_readN hstream hstream'
  rw [← List.length_append, ← h.get_bytes_iff] at hboth
  rw [encrypt_of_get_bytes _ hboth, List.zipWith_append hlength.symm]

theorem Reads.encrypts {M : Methods S} {next : σ → Option (List UInt8 × σ)}
    {view : S ≃ Reader σ UInt8} (h : Reads M next view) {fuel : Nat} {bufs outs : List (List UInt8)}
    {self self' : S} (hcalls : Decrypto.encrypts M fuel bufs self = some (outs, self')) :
    ∃ fuel', encrypt M fuel' bufs.flatten self = some (outs.flatten, self') := by
  induction bufs generalizing self outs with
  | nil =>
    cases hcalls
    have hnone : Decrypto.get_bytes M 1 0 self' = some ([], self') :=
      (h.get_bytes_iff _ _ _ _ _).mpr (readN_zero 0 (view self'))
    exact ⟨1, encrypt_of_get_bytes [] hnone⟩
  | cons buf bufs ih =>
    obtain ⟨⟨out, self₁⟩, hfirst, hcalls⟩ := Option.bind_eq_some_iff.mp hcalls
    obtain ⟨⟨outs', self₂⟩, hrest, heq⟩ := Option.bind_eq_some_iff.mp hcalls
    cases heq
    obtain ⟨fuel', hrest⟩ := ih hrest
    exact ⟨fuel + fuel', h.encrypt_append hfirst hrest⟩

/-- Calls return while the generator can make enough blocks. -/
theorem Reads.encrypts_total {M : Methods S} {next : σ → Option (List UInt8 × σ)}
    {view : S ≃ Reader σ UInt8} (h : Reads M next view) {w : Nat} {P : Nat → σ → Prop}
    (hnext : ∀ k gen, P (k + 1) gen →
      ∃ block gen', next gen = some (block, gen') ∧ w ≤ block.length ∧ P k gen')
    (bufs : List (List UInt8)) {k fuel : Nat} (hfuel : k < fuel) {self : S}
    (hk : P k (view self).gen) (hlength : bufs.flatten.length ≤ (M.buf self).length + w * k) :
    ∃ r, Decrypto.encrypts M fuel bufs self = some r := by
  induction bufs generalizing self k with
  | nil => exact ⟨_, rfl⟩
  | cons buf bufs ih =>
    rw [List.flatten_cons, List.length_append, h.buf] at hlength
    obtain ⟨stream, r, j, hread, hj, hmakes, hle⟩ :=
      readN_total hnext hk (n := buf.length) (by omega)
    have hbytes : Decrypto.get_bytes M fuel buf.length self = some (stream, view.symm r) := by
      rw [h.get_bytes_iff, view.apply_symm_apply]
      exact readN_mono hread hfuel
    have hrest : ∃ p, Decrypto.encrypts M fuel bufs (view.symm r) = some p := by
      apply ih (Nat.lt_of_le_of_lt hj hfuel)
      · rw [view.apply_symm_apply]
        exact hmakes
      · rw [h.buf, view.apply_symm_apply]
        omega
    obtain ⟨p, hp⟩ := hrest
    rw [Decrypto.encrypts, encrypt_of_get_bytes buf hbytes]
    simp only [Option.bind_eq_bind, Option.bind_some, hp]
    exact ⟨_, rfl⟩

/-- The fields of a `Crypto` but for `_buf`. -/
def Crypto.view : Crypto ≃ Reader (List UInt8) UInt8 where
  toFun self := ⟨self.key, self._buf⟩
  invFun r := ⟨r.gen, r.buf⟩
  left_inv _ := rfl
  right_inv _ := rfl

def Crypto.next (key : List UInt8) : Option (List UInt8 × List UInt8) := some (key, key)

theorem Crypto.reads : Reads Crypto.methods Crypto.next Crypto.view := by
  constructor
  · exact fun _ => rfl
  · exact fun _ _ => rfl
  · exact fun _ => rfl

/-- The fields of a `HashCrypto` but for `_buf`: the key, the block and its number. -/
def HashCrypto.view : HashCrypto ≃ Reader (List UInt8 × List UInt8 × Nat) UInt8 where
  toFun self := ⟨(self.key, self._blk, self._blkid), self._buf⟩
  invFun r := ⟨⟨r.gen.1, r.buf⟩, r.gen.2.1, r.gen.2.2⟩
  left_inv _ := rfl
  right_inv _ := rfl

def HashCrypto.next (sha256 : Sha256) (gen : List UInt8 × List UInt8 × Nat) :
    Option (List UInt8 × List UInt8 × List UInt8 × Nat) :=
  (packLow gen.2.2).map fun id =>
    ((sha256 (gen.2.1 ++ id)).1, gen.1, (sha256 (gen.2.1 ++ id)).1, gen.2.2 + 1)

theorem HashCrypto.reads (sha256 : Sha256) :
    Reads (HashCrypto.methods sha256) (HashCrypto.next sha256) HashCrypto.view := by
  constructor
  · exact fun _ => rfl
  · exact fun _ _ => rfl
  · intro self
    simp only [HashCrypto.methods, HashCrypto.next, HashCrypto.view, Equiv.coe_fn_mk,
      Option.map_map]
    cases packLow self._blkid <;> rfl

/-- Successive calls on a fresh object take the keystream without a gap and keep what the last block
has left; one call on a fresh object gives the same bytes and leaves the same object, and a call on
another turns them back. -/
def Streams (M : Methods S) (fresh : S) (keystream : Nat → List UInt8) : Prop :=
  ∀ fuel bufs outs self, Decrypto.encrypts M fuel bufs fresh = some (outs, self) →
    (∃ k used, keystream k = used ++ M.buf self ∧ used.length = bufs.flatten.length ∧
      outs.flatten = List.zipWith (· ^^^ ·) bufs.flatten used) ∧
    ∃ fuel', encrypt M fuel' bufs.flatten fresh = some (outs.flatten, self) ∧
      encrypt M fuel' outs.flatten fresh = some (bufs.flatten, self)

theorem Reads.streams {M : Methods S} {next : σ → Option (List UInt8 × σ)}
    {view : S ≃ Reader σ UInt8} (h : Reads M next view) {fresh : S} {keystream : Nat → List UInt8}
    (hbuf : M.buf fresh = [])
    (hblocks : ∀ k ks gen, blocks next k (view fresh).gen = some (ks, gen) → ks = keystream k) :
    Streams M fresh keystream := by
  intro fuel bufs outs self hcalls
  obtain ⟨fuel', hwhole⟩ := h.encrypts hcalls
  obtain ⟨stream, hstream, houts⟩ := encrypt_eq_some hwhole
  obtain ⟨hlength, k, ks, hks, hbytes⟩ := readN_spec ((h.get_bytes_iff _ _ _ _ _).mp hstream)
  constructor
  · refine ⟨k, stream, ?_, hlength, houts⟩
    rw [← hblocks k ks _ hks, h.buf self, ← hbytes, ← h.buf fresh, hbuf, List.nil_append]
  · have hsame : outs.flatten.length = bufs.flatten.length := by
      rw [houts, List.length_zipWith, hlength, Nat.min_self]
    rw [← hsame] at hstream
    have hback := encrypt_of_get_bytes outs.flatten hstream
    rw [houts, zipWith_xor_cancel hlength, ← houts] at hback
    exact ⟨fuel', hwhole, hback⟩

theorem Crypto.blocks (key : List UInt8) (k : Nat) :
    Keystream.blocks Crypto.next k key = some ((List.replicate k key).flatten, key) := by
  induction k with
  | zero => rfl
  | succ k ih =>
    have hnext : Crypto.next key = some (key, key) := rfl
    simp only [Keystream.blocks, hnext, Option.bind_eq_bind, Option.bind_some, ih]
    rfl

/-- The blocks of a `HashCrypto`: the key, and then each the digest of the one before with its
number. -/
def hashBlock (sha256 : Sha256) (key : List UInt8) : Nat → List UInt8
  | 0 => key
  | k + 1 => (sha256 (hashBlock sha256 key k ++ (bigEndian k).reverse)).1

theorem HashCrypto.blocks (sha256 : Sha256) (key : List UInt8) {k i : Nat} {ks : List UInt8}
    {gen : List UInt8 × List UInt8 × Nat}
    (h : Keystream.blocks (HashCrypto.next sha256) k (key, hashBlock sha256 key i, i) =
      some (ks, gen)) :
    ks = (List.range' (i + 1) k).flatMap (hashBlock sha256 key) := by
  induction k generalizing i ks with
  | zero =>
    cases h
    rfl
  | succ k ih =>
    obtain ⟨⟨block, gen₁⟩, hblock, hrest⟩ := Option.bind_eq_some_iff.mp h
    obtain ⟨⟨ks', gen₂⟩, hks, heq⟩ := Option.bind_eq_some_iff.mp hrest
    cases heq
    obtain ⟨id, hid, heq⟩ := Option.map_eq_some_iff.mp hblock
    have hlow : id = (bigEndian i).reverse := by
      obtain ⟨bytes, hbytes, rfl⟩ := Option.map_eq_some_iff.mp hid
      rw [pack] at hbytes
      split at hbytes
      · rw [Option.some.inj hbytes]
      · cases hbytes
    rw [hlow] at heq
    cases heq
    rw [List.range'_succ, List.flatMap_cons, ih (i := i + 1) hks]
    rfl

/-- However a message is cut into calls, `Crypto` and `HashCrypto` give what one call gives for the
whole, keep exactly the unused part of the keystream, and turn the result back into the message. -/
theorem encrypt_streams (sha256 : Sha256) (key : List UInt8) :
    Streams Crypto.methods (Crypto.new key) (fun k => (List.replicate k key).flatten) ∧
      Streams (HashCrypto.methods sha256) (HashCrypto.new key)
        (fun k => (List.range' 1 k).flatMap (hashBlock sha256 key)) := by
  constructor
  · apply Crypto.reads.streams rfl
    intro k ks gen hks
    have hkey := Crypto.blocks key k
    rw [show Crypto.view (Crypto.new key) = ⟨key, []⟩ from rfl, hkey] at hks
    cases hks
    rfl
  · apply (HashCrypto.reads sha256).streams rfl
    intro k ks gen hks
    exact HashCrypto.blocks sha256 key hks

/-- Calls return for every message with a key that is not empty, and with digests for every message
of at most `2 ^ 32` of them. -/
theorem encrypts_return (sha256 : Sha256) (key : List UInt8) (bufs : List (List UInt8)) :
    (key ≠ [] → ∃ fuel r, encrypts Crypto.methods fuel bufs (Crypto.new key) = some r) ∧
      (bufs.flatten.length ≤ 32 * 2 ^ 32 → ∃ fuel r,
        encrypts (HashCrypto.methods sha256) fuel bufs (HashCrypto.new key) = some r) := by
  constructor
  · intro hkey
    have hnext : ∀ (k : Nat) (gen : List UInt8), gen ≠ [] → ∃ block gen',
        Crypto.next gen = some (block, gen') ∧ 1 ≤ block.length ∧ gen' ≠ [] := by
      intro k gen hgen
      exact ⟨gen, gen, rfl, List.length_pos_iff.mpr hgen, hgen⟩
    have hlength : bufs.flatten.length ≤ ([] : List UInt8).length + 1 * bufs.flatten.length := by
      rw [Nat.one_mul]
      exact Nat.le_add_left _ _
    exact ⟨_, Crypto.reads.encrypts_total (w := 1) (P := fun _ gen => gen ≠ []) hnext bufs
      (Nat.lt_succ_self _) hkey hlength⟩
  · intro hlength
    have hnext : ∀ (k : Nat) (gen : List UInt8 × List UInt8 × Nat), gen.2.2 + (k + 1) ≤ 2 ^ 32 →
        ∃ block gen', HashCrypto.next sha256 gen = some (block, gen') ∧ 32 ≤ block.length ∧
          gen'.2.2 + k ≤ 2 ^ 32 := by
      intro k gen hgen
      have hpack : packLow gen.2.2 = some (bigEndian gen.2.2).reverse := by
        rw [packLow, pack, if_pos (by omega)]
        rfl
      refine ⟨_, _, by rw [HashCrypto.next, hpack]; rfl, ?_, ?_⟩
      · exact Nat.le_of_eq (sha256 _).2.symm
      · dsimp only
        omega
    refine ⟨_, (HashCrypto.reads sha256).encrypts_total (w := 32)
      (P := fun k gen => gen.2.2 + k ≤ 2 ^ 32) hnext bufs (Nat.lt_succ_self (2 ^ 32)) ?_ ?_⟩
    · exact Nat.le_of_eq (Nat.zero_add _)
    · exact Nat.le_trans hlength (Nat.le_add_left _ _)

end CtfChallenges.Decrypto
