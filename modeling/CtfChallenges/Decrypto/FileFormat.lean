import CtfChallenges.Decrypto.File

/-!
# The format of the encrypted files

What `crypto.c` writes depends on the content alone, never leaves `outbuf`, and is read back by
`decrypt`.
-/

namespace CtfChallenges.Decrypto
open Framework Framework.Cbc

variable (aes : BlockCipher Key) (hmac : Hmac)

/-- AES-256-CBC with a zero initialization vector of the padded content. -/
def ciphertext (key : Key) (content : List UInt8) : List UInt8 :=
  join (cbcEncrypt (aes.enc key) zero (chop (pad content)).1)

/-- The ciphertext and its tag. -/
def encrypted (k : key_data) (content : List UInt8) : List UInt8 :=
  ciphertext aes k.crypt_key content ++ (hmac k.mac_key.1 (ciphertext aes k.crypt_key content)).1

private theorem write_eq {buf : List UInt8} (offset : Nat) (bytes : List UInt8)
    (h : offset + bytes.length ≤ buf.length) : ∃ buf', write buf offset bytes = some buf' ∧
      buf'.length = buf.length ∧ buf'.take (offset + bytes.length) = buf.take offset ++ bytes := by
  refine ⟨_, if_pos h, ?_, ?_⟩
  · simp only [List.length_append, List.length_take, List.length_drop]
    omega
  · apply List.take_left'
    rw [List.length_append, List.length_take_of_le (by omega)]

/-- The cipher context after the bytes, and what has come out of it. -/
def sofar (k : key_data) (text : List UInt8) :
    Context Key × List UInt8 :=
  Context.update aes ⟨k.crypt_key, zero, []⟩ text

/-- The keys with the contexts after the bytes. -/
def during (k : key_data) (text : List UInt8) : key_data :=
  { k with
    mac_ctx := some ⟨k.mac_key.1, (sofar aes k text).2⟩
    cipher_ctx := some (sofar aes k text).1 }

theorem setup_crypter_eq (k : key_data) : setup_crypter k = during aes k [] := by
  have hnone : chop ([] : List UInt8) = ([], []) := chop_join (by decide) []
  simp only [setup_crypter, during, sofar, Context.update, List.append_nil, hnone, chain,
    cbcEncrypt]
  rfl

private theorem length_buf_sofar (k : key_data) (text : List UInt8) :
    (sofar aes k text).1.buf.length < 16 :=
  (Context.length_update aes _ text).2.2

/-- A chunk never writes more than the buffer holds: an incomplete block of at most 15 bytes and a
chunk of at most 1024 have at most 64 complete blocks. -/
private theorem length_update_le {ctx : Context Key} (h : ctx.buf.length < 16)
    {inblock : List UInt8} (hlength : inblock.length ≤ buf_size) :
    (ctx.update aes inblock).2.length ≤ buf_size := by
  obtain ⟨hsum, hdvd, -⟩ := ctx.length_update aes inblock
  rw [buf_size] at hlength ⊢
  omega

private theorem encrypt_and_mac_data_during (k : key_data) (text : List UInt8)
    {inblock outbuf : List UInt8}
    (hin : inblock.length ≤ buf_size) (hout : outbuf.length = buf_size) :
    ∃ outbuf' out_size, encrypt_and_mac_data aes (during aes k text) inblock outbuf =
      some (during aes k (text ++ inblock), outbuf', out_size) ∧ outbuf'.length = buf_size ∧
      (sofar aes k text).2 ++ outbuf'.take out_size = (sofar aes k (text ++ inblock)).2 := by
  have hboth : sofar aes k (text ++ inblock) = (((sofar aes k text).1.update aes inblock).1,
      (sofar aes k text).2 ++ ((sofar aes k text).1.update aes inblock).2) :=
    Context.update_append aes _ text inblock
  have hfits := length_update_le aes (length_buf_sofar aes k text) hin
  obtain ⟨outbuf', hwrite, hlength, htake⟩ :=
    write_eq 0 ((sofar aes k text).1.update aes inblock).2
      (by rw [hout, Nat.zero_add]; exact hfits)
  rw [Nat.zero_add, List.take_zero, List.nil_append] at htake
  refine ⟨outbuf', ((sofar aes k text).1.update aes inblock).2.length, ?_, hlength.trans hout, ?_⟩
  · simp only [encrypt_and_mac_data, during, Option.bind_eq_bind, Option.bind_some, hwrite,
      HMAC_Update, htake, hboth]
    rfl
  · rw [htake, hboth]

private theorem encryptLoop_during (k : key_data) {chunks eof : List (List UInt8)}
    (hchunks : ∀ c ∈ chunks, c ≠ [] ∧ c.length ≤ buf_size) (heof : eof = [] ∨ eof = [[]])
    (text : List UInt8) {outbuf : List UInt8} (hout : outbuf.length = buf_size) :
    ∃ outbuf', encryptLoop aes (chunks ++ eof) (during aes k text) outbuf (sofar aes k text).2 =
      some (during aes k (text ++ chunks.flatten), outbuf',
        (sofar aes k (text ++ chunks.flatten)).2) ∧ outbuf'.length = buf_size := by
  induction chunks generalizing text outbuf with
  | nil =>
    rw [List.flatten_nil, List.append_nil]
    refine ⟨outbuf, ?_, hout⟩
    obtain rfl | rfl := heof
    · rfl
    · rfl
  | cons c chunks ih =>
    rw [List.forall_mem_cons] at hchunks
    obtain ⟨outbuf₁, out_size, hstep, hlength, htext⟩ :=
      encrypt_and_mac_data_during aes k text hchunks.1.2 hout
    obtain ⟨outbuf', hrest, hlength'⟩ := ih hchunks.2 (text ++ c) hlength
    refine ⟨outbuf', ?_, hlength'⟩
    have hne : ¬ c.length = 0 := fun hzero => hchunks.1.1 (List.length_eq_zero_iff.mp hzero)
    rw [List.cons_append, encryptLoop, if_neg hne, hstep]
    simp only [Option.bind_eq_bind, Option.bind_some]
    rw [htext, hrest, List.append_assoc, List.flatten_cons]

private theorem sofar_final (k : key_data) (text : List UInt8) :
    (sofar aes k text).2 ++ (sofar aes k text).1.final aes = ciphertext aes k.crypt_key text :=
  Context.update_final aes k.crypt_key zero text

private theorem finalize_crypter_during (k : key_data) (text : List UInt8) {outbuf : List UInt8}
    (hout : outbuf.length = buf_size) :
    ∃ k' outbuf' out_size, finalize_crypter aes hmac (during aes k text) outbuf =
      some (k', outbuf', out_size) ∧
      (sofar aes k text).2 ++ outbuf'.take out_size = encrypted aes hmac k text := by
  have hfinal : ((sofar aes k text).1.final aes).length = 16 :=
    Context.length_final aes (length_buf_sofar aes k text)
  obtain ⟨outbuf₁, hwrite₁, hlength₁, htake₁⟩ :=
    write_eq 0 ((sofar aes k text).1.final aes) (by rw [hout, hfinal]; decide)
  rw [Nat.zero_add, List.take_zero, List.nil_append] at htake₁
  have htag := (hmac k.mac_key.1 (ciphertext aes k.crypt_key text)).2
  obtain ⟨outbuf₂, hwrite₂, -, htake₂⟩ :=
    write_eq ((sofar aes k text).1.final aes).length
      (hmac k.mac_key.1 (ciphertext aes k.crypt_key text)).1
      (by rw [hlength₁, hout, hfinal, htag]; decide)
  rw [htake₁] at htake₂
  refine ⟨{ k with mac_ctx := none, cipher_ctx := none }, outbuf₂,
    ((sofar aes k text).1.final aes).length +
      (hmac k.mac_key.1 (ciphertext aes k.crypt_key text)).1.length, ?_, ?_⟩
  · simp only [finalize_crypter, during, Option.bind_eq_bind, Option.bind_some, hwrite₁,
      HMAC_Update, htake₁, sofar_final, Nat.zero_add, hwrite₂]
    rfl
  · rw [htake₂, ← List.append_assoc, sofar_final]
    rfl

private theorem length_ciphertext (key : Key) (content : List UInt8) :
    (ciphertext aes key content).length = (pad content).length := by
  have hjoin := congrArg List.length (join_chop_of_dvd (dvd_length_pad content))
  rw [length_join] at hjoin
  rw [ciphertext, length_join, length_cbcEncrypt, hjoin]

private theorem aesCbcDecrypt_ciphertext (key : Key) (content : List UInt8) :
    aesCbcDecrypt aes key (ciphertext aes key content) = .ok (pad content) := by
  have hlength : (ciphertext aes key content).length % 16 = 0 := by
    rw [length_ciphertext]
    exact Nat.mod_eq_zero_of_dvd (dvd_length_pad content)
  have hnil : ([] : List UInt8).length < 16 := by decide
  have hchop := chop_join hnil (cbcEncrypt (aes.enc key) zero (chop (pad content)).1)
  rw [List.append_nil] at hchop
  rw [aesCbcDecrypt, if_neg (not_not.mpr hlength), ciphertext, hchop,
    cbcDecrypt_cbcEncrypt (aes.dec_enc key), join_chop_of_dvd (dvd_length_pad content)]

private theorem dropEnd_pad (content : List UInt8) :
    dropEnd (pad content) (UInt8.ofNat (16 - content.length % 16)).toNat = content := by
  have hlt : 16 - content.length % 16 < 256 := by omega
  have hne : 16 - content.length % 16 ≠ 0 := by omega
  rw [UInt8.toNat_ofNat_of_lt' hlt, dropEnd, if_neg hne, take_pad]

theorem decrypt_encrypted (k : key_data) (content : List UInt8) :
    decrypt aes hmac (encrypted aes hmac k content) k.crypt_key k.mac_key.1 =
      .ok (some content) := by
  have htag := (hmac k.mac_key.1 (ciphertext aes k.crypt_key content)).2
  have hlength : (encrypted aes hmac k content).length - 32 =
      (ciphertext aes k.crypt_key content).length := by
    rw [encrypted, List.length_append, htag, Nat.add_sub_cancel]
  have hsig : (encrypted aes hmac k content).drop ((encrypted aes hmac k content).length - 32) =
      (hmac k.mac_key.1 (ciphertext aes k.crypt_key content)).1 := by
    rw [hlength, encrypted, List.drop_left]
  have hbuf : dropEnd (encrypted aes hmac k content) 32 = ciphertext aes k.crypt_key content := by
    rw [dropEnd, if_neg (by decide), hlength, encrypted, List.take_left]
  simp only [decrypt, hsig, hbuf, ne_eq, not_true_eq_false, if_false, aesCbcDecrypt_ciphertext,
    bind, Except.bind, getLast?_pad, dropEnd_pad]
  rfl

/-- However a file is read in chunks of at most 1024 bytes, nothing is written outside `outbuf`, the
output is the ciphertext of the padded content and its tag, and `decrypt` returns the content. -/
theorem encrypted_file (k : key_data) (outbuf : List UInt8) (hout : outbuf.length = buf_size)
    (chunks eof : List (List UInt8)) (hchunks : ∀ c ∈ chunks, c ≠ [] ∧ c.length ≤ buf_size)
    (heof : eof = [] ∨ eof = [[]]) :
    encryptFile aes hmac k outbuf (chunks ++ eof) = some (encrypted aes hmac k chunks.flatten) ∧
      decrypt aes hmac (encrypted aes hmac k chunks.flatten) k.crypt_key k.mac_key.1 =
        .ok (some chunks.flatten) := by
  constructor
  · obtain ⟨outbuf₁, hloop, hlength⟩ := encryptLoop_during aes k hchunks heof [] hout
    obtain ⟨k', outbuf₂, out_size, hend, hbytes⟩ :=
      finalize_crypter_during aes hmac k ([] ++ chunks.flatten) hlength
    have hstart : (sofar aes k []).2 = [] := by
      have hnone : chop ([] : List UInt8) = ([], []) := chop_join (by decide) []
      simp only [sofar, Context.update, List.append_nil, hnone, cbcEncrypt]
      rfl
    rw [hstart] at hloop
    rw [encryptFile, setup_crypter_eq aes, hloop]
    simp only [Option.bind_eq_bind, Option.bind_some, hend]
    exact congrArg some hbytes
  · exact decrypt_encrypted aes hmac k chunks.flatten

theorem encrypted_file_two_chunks :
    let aes : BlockCipher Key := ⟨fun _ b => b, fun _ b => b, fun _ _ => rfl⟩
    let hmac : Hmac := fun _ _ => ⟨List.replicate 32 1, List.length_replicate⟩
    let k : key_data := ⟨⟨List.replicate 32 2, rfl⟩, ⟨List.replicate 32 3, rfl⟩, none, none⟩
    encryptFile aes hmac k (List.replicate 1024 0) ([[104, 105], [33]] ++ [[]]) =
        some (encrypted aes hmac k [104, 105, 33]) ∧
      decrypt aes hmac (encrypted aes hmac k [104, 105, 33]) k.crypt_key k.mac_key.1 =
        .ok (some [104, 105, 33]) := by
  intro aes hmac k
  exact encrypted_file aes hmac k (List.replicate 1024 0) List.length_replicate [[104, 105], [33]]
    [[]] (by decide) (.inr rfl)

end CtfChallenges.Decrypto
