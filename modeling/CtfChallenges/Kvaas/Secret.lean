import CtfChallenges.Kvaas.Number

/-!
# Secrets of kvaas in memory

`set_node_secret`, `encrypt_secret_data` and `decrypt_secret_data` of `nodes.c` on the bytes of
`secret_data_t`. The key has 32 bytes behind the header, and the terminator that is written behind
them lies in the padding.
-/

namespace CtfChallenges.Kvaas.InMemory
open Framework CString

/-- The offset of `key` in `secret_data_t`, and its size. -/
def KEY : Nat := 4
def KEY_SIZE : Nat := 32

/-- The first three fields as bytes, and the two others that data goes to. -/
structure Secret where
  fields : Mem
  fields_length : fields.length = 4 + 32 + 8
  pt_len : Nat
  data : Mem

/-- A pass of the loops, which divide by the length of the key. -/
def xorPass (key : Mem) (p key_len : Nat) (value : Mem) (i : Nat) : Option Mem := do
  let c ← value[i]?
  if key_len = 0 then none
  else
    let k ← key[p + i % key_len]?
    store value i (c ^^^ k)

/-- `encrypt_secret_data` with the key at `p`: the length of the value, and its bytes. -/
def encrypt_secret_data (key : Mem) (p : Nat) (value : Mem) : Option (Nat × Mem) := do
  let len := (← cstr value 0).length
  let key_len := (← cstr key p).length
  let value ← (List.range len).foldlM (xorPass key p key_len) value
  return (len, value)

def decrypt_secret_data (key : Mem) (p : Nat) (value : Mem) (pt_len : Nat) : Option Mem := do
  let key_len := (← cstr key p).length
  (List.range pt_len).foldlM (xorPass key p key_len) value

/-- The fields with a new key: `strncpy`, and the terminator behind the field. -/
def withKey (fields : Mem) (key : List UInt8) : Mem :=
  overwrite (overwrite fields KEY (padded key KEY_SIZE)) (KEY + KEY_SIZE) [0]

theorem length_withKey {fields : Mem} (h : fields.length = 4 + 32 + 8) (key : List UInt8) :
    (withKey fields key).length = 4 + 32 + 8 := by
  have hkey : (overwrite fields KEY (padded key KEY_SIZE)).length = 4 + 32 + 8 := by
    rw [length_overwrite (by rw [length_padded, h]; decide), h]
  rw [withKey, length_overwrite (by rw [hkey]; decide), hkey]

/-- `set_node_secret` with the strings that its two prompts return. -/
def set_node_secret (secret : Secret) (key value : List UInt8) : Option Secret := do
  let fields := withKey secret.fields key
  let (pt_len, data) ← encrypt_secret_data fields KEY (value ++ [0])
  return ⟨fields, length_withKey secret.fields_length key, pt_len, data⟩

/-- The secret is stored under the first 32 characters of the key, and decrypting gives the value with
its terminator. -/
def StoresSecret (secret : Secret) (key value : List UInt8) : Prop :=
  ∃ secret', set_node_secret secret key value = some secret' ∧
    cstr secret'.fields KEY = some (key.take KEY_SIZE) ∧ secret'.pt_len = value.length ∧
    decrypt_secret_data secret'.fields KEY secret'.data secret'.pt_len = some (value ++ [0])

/-- The first `n` bytes combined with the key. -/
def xored (key : List UInt8) (n : Nat) (value : Mem) : Mem :=
  value.mapIdx fun i c => if i < n then c ^^^ key.getD (i % key.length) 0 else c

variable {key value : List UInt8} {mem : Mem} {p n : Nat}

@[simp] theorem length_xored (key : List UInt8) (n : Nat) (value : Mem) :
    (xored key n value).length = value.length := List.length_mapIdx

theorem xored_getElem? (key : List UInt8) (n : Nat) (value : Mem) (i : Nat) :
    (xored key n value)[i]? =
      value[i]?.map fun c => if i < n then c ^^^ key.getD (i % key.length) 0 else c := by
  unfold xored
  rw [List.getElem?_mapIdx]

theorem xored_xored (key : List UInt8) (n : Nat) (value : Mem) :
    xored key n (xored key n value) = value := by
  apply List.ext_getElem?
  intro i
  rw [xored_getElem?, xored_getElem?, Option.map_map]
  have hid : ((fun c => if i < n then c ^^^ key.getD (i % key.length) 0 else c) ∘
      fun c => if i < n then c ^^^ key.getD (i % key.length) 0 else c) = id := by
    funext c
    by_cases hi : i < n
    · simp only [Function.comp_apply, if_pos hi, UInt8.xor_assoc, UInt8.xor_self, UInt8.xor_zero, id]
    · simp only [Function.comp_apply, if_neg hi, id]
  rw [hid, Option.map_id, id]

theorem xored_zero (key : List UInt8) (value : Mem) : xored key 0 value = value := by
  apply List.ext_getElem?
  intro i
  simp [xored_getElem?]

theorem xored_succ {c : UInt8} (hc : value[n]? = some c) : xored key (n + 1) value =
    (xored key n value).set n (c ^^^ key.getD (n % key.length) 0) := by
  apply List.ext_getElem?
  intro i
  rw [List.getElem?_set, xored_getElem?, xored_getElem?, length_xored]
  by_cases heq : n = i
  · subst heq
    obtain ⟨hn, rfl⟩ := List.getElem?_eq_some_iff.mp hc
    simp [hn]
  · have hiff : i < n + 1 ↔ i < n := by omega
    simp only [if_neg heq, hiff]

theorem foldlM_xorPass (hkey : StringAt mem p key) (hpos : key ≠ []) (hn : n ≤ value.length) :
    (List.range n).foldlM (xorPass mem p key.length) value = some (xored key n value) := by
  have hlen := List.length_pos_iff.mpr hpos
  obtain ⟨-, rest, hdrop⟩ := hkey
  induction n with
  | zero => rw [xored_zero]; rfl
  | succ n ih =>
    have hcell : value[n]? = some value[n] := List.getElem?_eq_getElem hn
    have hmod : n % key.length < key.length := Nat.mod_lt n hlen
    have hchar : mem[p + n % key.length]? = some (key.getD (n % key.length) 0) := by
      rw [getElem?_string hdrop hmod, List.getD_eq_getElem?_getD, List.getElem?_eq_getElem hmod,
        Option.getD_some]
    rw [List.range_succ, List.foldlM_append, ih (Nat.le_of_succ_le hn), xored_succ hcell]
    have hread : (xored key n value)[n]? = some value[n] := by
      simp [xored_getElem?, hcell]
    have hlt : n < value.length := hn
    simp only [List.foldlM_cons, List.foldlM_nil, bind_pure, Option.bind_eq_bind, Option.bind_some,
      xorPass, hread, hchar, if_neg (Nat.ne_of_gt hlen), store, length_xored, if_pos hlt]

theorem foldlM_xorPass_zero (mem : Mem) (p : Nat) (hn : 0 < n) (value : Mem) :
    (List.range n).foldlM (xorPass mem p 0) value = none := by
  obtain ⟨n, rfl⟩ := Nat.exists_eq_succ_of_ne_zero (Nat.ne_of_gt hn)
  rw [Nat.succ_eq_add_one, List.range_succ_eq_map, List.foldlM_cons, xorPass]
  cases value[0]? <;> rfl

/-- The field holds the first characters of the key as a string, also where they fill it. -/
theorem withKey_string {fields : Mem} (h : fields.length = 4 + 32 + 8) (hkey : 0 ∉ key) :
    StringAt (withKey fields key) KEY (key.take KEY_SIZE) := by
  have hfield : KEY + KEY_SIZE ≤ fields.length := by
    rw [h]
    decide
  have hfields : withKey fields key = overwrite fields KEY (padded key KEY_SIZE ++ [0]) := by
    rw [overwrite_append (by omega), length_padded]
    rfl
  rw [hfields]
  exact stringAt_padded (by omega) hkey

theorem encrypt_eq {fields : Mem} (hfields : StringAt fields p key) (hvalue : 0 ∉ value)
    (h : key ≠ [] ∨ value = []) : encrypt_secret_data fields p (value ++ [0]) =
      some (value.length, xored key value.length (value ++ [0])) := by
  have hstring : cstr (value ++ [0]) 0 = some value := cstr_eq_some ⟨hvalue, [], rfl⟩
  simp only [encrypt_secret_data, hstring, cstr_eq_some hfields, Option.bind_eq_bind,
    Option.bind_some]
  rcases h with hkey | rfl
  · rw [foldlM_xorPass hfields hkey (by simp)]
    rfl
  · rw [List.length_nil, xored_zero]
    rfl

theorem decrypt_eq {fields : Mem} (hfields : StringAt fields p key) (hn : n ≤ value.length)
    (h : key ≠ [] ∨ n = 0) : decrypt_secret_data fields p value n = some (xored key n value) := by
  simp only [decrypt_secret_data, cstr_eq_some hfields, Option.bind_eq_bind, Option.bind_some]
  rcases h with hkey | rfl
  · exact foldlM_xorPass hfields hkey hn
  · rw [xored_zero]
    rfl

theorem nul_not_mem_answer (line : List UInt8) : 0 ∉ answer line := by
  intro hmem
  obtain ⟨front, back, hsplit, -⟩ := trimmed_split (line.takeWhile (· ≠ 0))
  have hline : (0 : UInt8) ∈ line.takeWhile (· ≠ 0) := by
    rw [hsplit]
    exact List.mem_append_right _ (List.mem_append_left _ hmem)
  simpa using List.mem_takeWhile_imp hline

/-- An empty key divides by zero unless there is nothing to encrypt, and every other key works. -/
theorem stores_secret_iff (secret : Secret) (keyLine valueLine : List UInt8) :
    StoresSecret secret (answer keyLine) (answer valueLine) ↔
      answer keyLine ≠ [] ∨ answer valueLine = [] := by
  have hkey := nul_not_mem_answer keyLine
  have hvalue := nul_not_mem_answer valueLine
  generalize answer keyLine = key at hkey ⊢
  generalize answer valueLine = value at hvalue ⊢
  have hfields := withKey_string secret.fields_length hkey
  have hempty : key.take KEY_SIZE = [] ↔ key = [] := by simp [KEY_SIZE]
  constructor
  · rintro ⟨secret', hset, -⟩
    by_contra hnone
    rw [not_or, not_not] at hnone
    obtain ⟨rfl, hne⟩ := hnone
    have hstring : cstr (value ++ [0]) 0 = some value := cstr_eq_some ⟨hvalue, [], rfl⟩
    have hloop := foldlM_xorPass_zero (withKey secret.fields []) KEY
      (List.length_pos_iff.mpr hne) (value ++ [0])
    simp only [set_node_secret, encrypt_secret_data, hstring, cstr_eq_some hfields,
      Option.bind_eq_bind, Option.bind_some, List.take_nil, List.length_nil, hloop,
      Option.bind_none] at hset
    cases hset
  · intro h
    have hkey' : key.take KEY_SIZE ≠ [] ∨ value = [] := by rwa [ne_eq, hempty]
    have hlength : value.length ≤ (xored (key.take KEY_SIZE) value.length (value ++ [0])).length := by
      simp
    refine ⟨⟨withKey secret.fields key, length_withKey secret.fields_length key, value.length,
      xored (key.take KEY_SIZE) value.length (value ++ [0])⟩, ?_, cstr_eq_some hfields, rfl, ?_⟩
    · simp only [set_node_secret, encrypt_eq hfields hvalue hkey', Option.bind_eq_bind,
        Option.bind_some]
      rfl
    · simp only [decrypt_eq hfields hlength (hkey'.imp_right (congrArg List.length ·)), xored_xored]

/-- A bare newline at the key prompt. -/
theorem empty_key_divides :
    set_node_secret ⟨List.replicate 44 0x41, rfl, 0, []⟩ (answer (ascii "\n"))
      (answer (ascii "x\n")) = none ∧
    ¬StoresSecret ⟨List.replicate 44 0x41, rfl, 0, []⟩ (answer (ascii "\n"))
      (answer (ascii "x\n")) := by
  have hnone : (set_node_secret ⟨List.replicate 44 0x41, rfl, 0, []⟩ (answer (ascii "\n"))
      (answer (ascii "x\n"))).isNone := by decide
  rw [Option.isNone_iff_eq_none] at hnone
  refine ⟨hnone, fun ⟨secret', hset, _⟩ => ?_⟩
  rw [hnone] at hset
  cases hset

/-- The store holds what lies in memory in front of the terminator. -/
theorem encrypt_refines {fields : Mem} (hfields : StringAt fields p key) (hvalue : 0 ∉ value) :
    encrypt_secret_data fields p (value ++ [0]) =
      (Kvaas.encrypt_secret_data key value).map fun data => (value.length, data ++ [0]) := by
  by_cases hempty : key.length = 0 ∧ value.length ≠ 0
  · have hkey : key = [] := List.eq_nil_of_length_eq_zero hempty.1
    subst hkey
    have hstring : cstr (value ++ [0]) 0 = some value := cstr_eq_some ⟨hvalue, [], rfl⟩
    have hloop := foldlM_xorPass_zero fields p (Nat.pos_of_ne_zero hempty.2) (value ++ [0])
    simp only [encrypt_secret_data, hstring, cstr_eq_some hfields, Option.bind_eq_bind,
      Option.bind_some, List.length_nil, hloop, Option.bind_none, Kvaas.encrypt_secret_data]
    rw [if_pos ⟨trivial, hempty.2⟩]
    rfl
  · have hkey : key ≠ [] ∨ value = [] := by
      rw [← List.length_eq_zero_iff, ne_eq, ← List.length_eq_zero_iff]
      omega
    rw [encrypt_eq hfields hvalue hkey, Kvaas.encrypt_secret_data, if_neg hempty]
    have hbytes : xored key value.length (value ++ [0]) =
        (value.mapIdx fun i c => c ^^^ key.getD (i % key.length) 0) ++ [0] := by
      apply List.ext_getElem?
      intro i
      rw [xored_getElem?, List.getElem?_append, List.getElem?_append, List.length_mapIdx]
      by_cases hi : i < value.length
      · simp [hi]
      · simp only [if_neg hi, Option.map_id']
    rw [hbytes, Option.map_some]

end CtfChallenges.Kvaas.InMemory
