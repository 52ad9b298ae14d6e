import CtfChallenges.Framework.AddressSpace
import CtfChallenges.Framework.CString
import CtfChallenges.Framework.Run
import CtfChallenges.Framework.Stdio

/-!
# Guarded memory in ripc4

`secure_malloc`, `secure_free` and `secure_strdup` of `ripc4.c` with pages of 4096 bytes, and the
strings that `prompt` returns. The size of a mapping is kept in its lower guard page.
-/

namespace CtfChallenges.Ripc4.SecureMemory
open Framework AddressSpace Stdio

def BUF_SIZE : Nat := 4096

/-- `sysconf(_SC_PAGESIZE)` -/
def pg_size : UInt64 := 4096

/-- The string that `prompt` returns, and what it leaves on the stream. For the empty string it looks
for the newline in front of its buffer. -/
def prompt (stream : List UInt8) : Option (List UInt8 × List UInt8) := do
  let (line, rest) ← fgets BUF_SIZE stream
  let rv := line.takeWhile (· ≠ 0)
  return (if rv.getLast? = some newline then rv.dropLast else rv, rest)

/-- The size rounded up to whole pages. -/
def rounded (sz : UInt64) : UInt64 := (sz + pg_size - 1) &&& ~~~(pg_size - 1)

/-- The size with the guard pages. -/
def mappingSize (sz : UInt64) : UInt64 := rounded sz + (pg_size <<< 1)

/-- The memory and the pointer that is returned. There is none when `mmap` fails and the program
exits. -/
def secure_malloc (k : Kernel 4096) (m : Space) (sz : UInt64) : Option (Space × Nat) := do
  let sz := mappingSize sz
  let ptr ← k.place m sz.toNat
  let m := m.map ptr sz.toNat .write
  let m ← m.store ptr (leBytes 8 sz.toNat)
  let m := m.mprotect 4096 ptr 4096 .none
  let m := m.mprotect 4096 (ptr + sz.toNat - 4096) 4096 .none
  return (m, ptr + 4096)

/-- `secure_free` up to `munmap`, with the size that it has read. -/
def secure_free_zero (m : Space) (ptr : Nat) : Option (Space × UInt64) := do
  let base := ptr - 4096
  let m := m.mprotect 4096 base 4096 .read
  let header ← m.load base 8
  let sz := UInt64.ofNat (ofLe header)
  let m ← m.store ptr (List.replicate (sz - (pg_size <<< 1)).toNat 0)
  return (m, sz)

def secure_free (m : Space) (ptr : Nat) : Option Space := do
  let (m, sz) ← secure_free_zero m ptr
  return m.munmap 4096 (ptr - 4096) sz.toNat

/-- The arguments of `memcpy`, and the memory before it. -/
structure Copy where
  dest : Nat
  src : Nat
  n : Nat
  space : Space

/-- `secure_strdup` up to `memcpy`. -/
def secure_strdup_copy (k : Kernel 4096) (m : Space) (s : Nat) : Option Copy := do
  let len := (← m.strlen s) + 1
  let (space, buf) ← secure_malloc k m (UInt64.ofNat len)
  return ⟨buf, s, len + 1, space⟩

def secure_strdup (k : Kernel 4096) (m : Space) (s : Nat) : Option (Space × Nat) := do
  let c ← secure_strdup_copy k m s
  let copied ← c.space.load c.src c.n
  let m ← c.space.store c.dest copied
  return (m, c.dest)

/-! ## What is copied -/

def Prompted (str : List UInt8) : Prop := ∃ stream rest, prompt stream = some (str, rest)

/-- The bytes that are read are those of the string and its terminator. -/
def Copy.InSource (c : Copy) (str : List UInt8) : Prop :=
  ∀ x, c.src ≤ x → x < c.src + c.n → x < c.src + str.length + 1

/-- The bytes that are written are in front of the guard page. -/
def Copy.InRegion (c : Copy) : Prop :=
  ∀ x, c.dest ≤ x → x < c.dest + c.n → c.space.Writable x

/-! ## Allocations -/

/-- The sum of the size, the rounding and the guard pages does not overflow. -/
def NoOverflow (sz : UInt64) : Prop := sz.toNat + (4096 - 1) + 2 * 4096 < 2 ^ 64

instance (sz : UInt64) : Decidable (NoOverflow sz) := by unfold NoOverflow; infer_instance

/-- What `secure_malloc` has returned, and for which size. -/
structure Allocation where
  ptr : Nat
  size : UInt64
deriving DecidableEq, Repr

/-- The bytes between the guard pages. -/
def Allocation.usable (a : Allocation) : Nat := (rounded a.size).toNat

/-- The bytes of the region can be used, and there is a guard page on each side. -/
structure Guarded (m : Space) (a : Allocation) : Prop where
  lower : ∀ x, a.ptr - 4096 ≤ x → x < a.ptr → m.prot x = some .none
  usable : ∀ x, a.ptr ≤ x → x < a.ptr + a.usable → m.prot x = some .write
  upper : ∀ x, a.ptr + a.usable ≤ x → x < a.ptr + a.usable + 4096 → m.prot x = some .none

/-- `secure_free` reads the size of the mapping again, and before it unmaps that, zeroes the region and
nothing else. -/
def Frees (m : Space) (a : Allocation) : Prop :=
  ∃ m', secure_free_zero m a.ptr = some (m', mappingSize a.size) ∧
    secure_free m a.ptr = some (m'.munmap 4096 (a.ptr - 4096) (mappingSize a.size).toNat) ∧
    ∀ x, m'.byte x = if a.ptr ≤ x ∧ x < a.ptr + a.usable then 0 else m.byte x

/-! ## A process -/

/-- The memory with the allocations that have not been freed. -/
structure Heap where
  space : Space
  live : List Allocation

inductive Event
  | write (x : Nat) (b : UInt8)
  | malloc (sz : UInt64)
  | free (a : Allocation)

/-- What a process does to its memory, as long as it does not fault and frees what is live. -/
def step (k : Kernel 4096) (h : Heap) : Event → Option Heap
  | .write x b => do
    let m ← h.space.store x [b]
    return { h with space := m }
  | .malloc sz => do
    let (m, ptr) ← secure_malloc k h.space sz
    return ⟨m, ⟨ptr, sz⟩ :: h.live⟩
  | .free a => do
    if a ∈ h.live then
      let m ← secure_free h.space a.ptr
      return ⟨m, h.live.erase a⟩
    else none

def Event.Fits : Event → Prop
  | malloc sz => NoOverflow sz
  | _ => True

/-! ## Sizes -/

section
variable {sz : UInt64}

theorem and_not_add_and (x y : BitVec 64) : (x &&& ~~~y) + (x &&& y) = x := by
  rw [BitVec.add_eq_or_of_and_eq_zero]
  · ext i hi
    simp
    cases x[i] <;> cases y[i] <;> rfl
  · ext i hi
    simp only [BitVec.getElem_and, BitVec.getElem_not, BitVec.getElem_zero]
    cases x[i] <;> cases y[i] <;> rfl

theorem and_not_toNat (x : UInt64) : (x &&& ~~~(pg_size - 1)).toNat = x.toNat / 4096 * 4096 := by
  have hsum := congrArg BitVec.toNat (and_not_add_and x.toBitVec (pg_size - 1).toBitVec)
  have hlow : (x.toBitVec &&& (pg_size - 1).toBitVec).toNat = x.toNat % 4096 := by
    rw [BitVec.toNat_and]
    exact Nat.and_two_pow_sub_one_eq_mod x.toNat 12
  have hle : (x.toBitVec &&& ~~~(pg_size - 1).toBitVec).toNat ≤ x.toNat := by
    rw [BitVec.toNat_and]
    exact Nat.and_le_left
  have hlt : x.toNat < 2 ^ 64 := x.toNat_lt
  rw [BitVec.toNat_add, hlow] at hsum
  change (x.toBitVec &&& ~~~(pg_size - 1).toBitVec).toNat = x.toNat / 4096 * 4096
  have hnat : x.toBitVec.toNat = x.toNat := rfl
  omega

theorem rounded_toNat (h : NoOverflow sz) :
    (rounded sz).toNat = (sz.toNat + 4095) / 4096 * 4096 := by
  unfold NoOverflow at h
  have hpage : pg_size.toNat = 4096 := rfl
  have hsum : (sz + pg_size - 1).toNat = sz.toNat + 4095 := by
    have hadd : (sz + pg_size).toNat = sz.toNat + 4096 := by
      rw [UInt64.toNat_add, hpage, Nat.mod_eq_of_lt (by omega)]
    have hone : (1 : UInt64) ≤ sz + pg_size := by
      rw [UInt64.le_iff_toNat_le, hadd, UInt64.toNat_one]
      omega
    rw [UInt64.toNat_sub_of_le _ _ hone, hadd, UInt64.toNat_one]
    omega
  rw [rounded, and_not_toNat, hsum]

theorem rounded_bounds (h : NoOverflow sz) : sz.toNat ≤ (rounded sz).toNat ∧
    (rounded sz).toNat < sz.toNat + 4096 ∧ 4096 ∣ (rounded sz).toNat := by
  rw [rounded_toNat h]
  refine ⟨?_, ?_, Nat.dvd_mul_left _ _⟩ <;> omega

theorem mappingSize_toNat (h : NoOverflow sz) :
    (mappingSize sz).toNat = (rounded sz).toNat + 8192 := by
  have hbounds := rounded_bounds h
  unfold NoOverflow at h
  rw [mappingSize, UInt64.toNat_add]
  have htwo : (pg_size <<< 1).toNat = 8192 := by decide
  rw [htwo, Nat.mod_eq_of_lt (by omega)]

end

/-! ## Allocating -/

def Allocation.start (a : Allocation) : Nat := a.ptr - 4096

def Allocation.stop (a : Allocation) : Nat := a.ptr + a.usable + 4096

theorem Allocation.start_lt_stop (a : Allocation) : a.start < a.stop := by
  unfold Allocation.start Allocation.stop
  omega

/-- An allocation in memory, with the size of its mapping in the lower guard page. -/
structure Laid (m : Space) (a : Allocation) : Prop extends Guarded m a where
  fits : NoOverflow a.size
  page_le : 4096 ≤ a.ptr
  aligned : 4096 ∣ a.ptr
  header : m.bytes a.start 8 = leBytes 8 (mappingSize a.size).toNat

variable {k : Kernel 4096} {m m' : Space} {sz : UInt64} {base : Nat} {a b : Allocation}

/-- The memory after `secure_malloc`, where `mmap` returns `base` for a mapping of `n` bytes. -/
def allocated (m : Space) (base n : Nat) : Space :=
  (((m.map base n .write).put base (leBytes 8 n)).mprotect 4096 base 4096 .none).mprotect 4096
    (base + n - 4096) 4096 .none

theorem allocated_prot {n : Nat} (hbase : 4096 ∣ base) (hn : 4096 ∣ n) (hpages : 8192 ≤ n) (x : Nat) :
    (allocated m base n).prot x =
      if base ≤ x ∧ x < base + n then
        if x < base + 4096 ∨ base + n - 4096 ≤ x then some .none else some .write
      else m.prot x := by
  have hupper : 4096 ∣ base + n - 4096 := by omega
  rw [allocated, Space.mprotect_prot hupper, Space.mprotect_prot hbase, Space.put_prot]
  simp only [Space.map]
  by_cases hin : base ≤ x ∧ x < base + n
  · by_cases hlow : x < base + 4096
    · simp [hin, hlow]
    · by_cases hhigh : base + n - 4096 ≤ x
      · have hlast : x < base + n - 4096 + 4096 := by omega
        simp [hin, hlow, hhigh, hlast]
      · simp [hin, hlow, hhigh]
  · have hlow : ¬(base ≤ x ∧ x < base + 4096) := by omega
    have hhigh : ¬(base + n - 4096 ≤ x ∧ x < base + n - 4096 + 4096) := by omega
    rw [if_neg hhigh, if_neg hlow, if_neg hin, if_neg hin]

theorem allocated_byte {n : Nat} (hn : 8 ≤ n) {x : Nat} (hx : ¬(base ≤ x ∧ x < base + n)) :
    (allocated m base n).byte x = m.byte x := by
  rw [allocated, Space.mprotect_byte, Space.mprotect_byte, Space.put]
  simp only [length_leBytes, Space.map]
  rw [if_neg (by omega), if_neg hx]

theorem allocated_header (m : Space) (base n : Nat) :
    (allocated m base n).bytes base 8 = leBytes 8 n := by
  have hput := Space.bytes_put (m.map base n .write) base (leBytes 8 n)
  rw [length_leBytes] at hput
  rw [← hput]
  apply Space.bytes_congr
  intro x _ _
  rw [allocated, Space.mprotect_byte, Space.mprotect_byte]

theorem secure_malloc_eq (hsize : 8192 ≤ (mappingSize sz).toNat)
    (hplace : k.place m (mappingSize sz).toNat = some base) :
    secure_malloc k m sz = some (allocated m base (mappingSize sz).toNat, base + 4096) := by
  have hstore : (m.map base (mappingSize sz).toNat .write).store base
      (leBytes 8 (mappingSize sz).toNat) = some ((m.map base (mappingSize sz).toNat .write).put base
        (leBytes 8 (mappingSize sz).toNat)) := by
    apply Space.store_eq
    intro x hx hlt
    rw [length_leBytes] at hlt
    exact if_pos ⟨hx, by omega⟩
  simp [secure_malloc, hplace, hstore, allocated]

/-- An allocation is laid out on free pages and changes nothing else. -/
theorem secure_malloc_spec (hfits : NoOverflow sz) {ptr : Nat}
    (h : secure_malloc k m sz = some (m', ptr)) :
    Laid m' ⟨ptr, sz⟩ ∧ (∀ x, ptr - 4096 ≤ x → x < (Allocation.mk ptr sz).stop → m.prot x = none) ∧
      ∀ x, ¬(ptr - 4096 ≤ x ∧ x < (Allocation.mk ptr sz).stop) →
        m'.prot x = m.prot x ∧ m'.byte x = m.byte x := by
  obtain ⟨-, -, hround⟩ := rounded_bounds hfits
  have hsize := mappingSize_toNat hfits
  obtain ⟨base, hplace⟩ : ∃ base, k.place m (mappingSize sz).toNat = some base := by
    cases hplace : k.place m (mappingSize sz).toNat with
    | none => simp [secure_malloc, hplace] at h
    | some base => exact ⟨base, rfl⟩
  rw [secure_malloc_eq (by omega) hplace, Option.some.injEq, Prod.mk.injEq] at h
  obtain ⟨rfl, rfl⟩ := h
  have halign := k.aligned _ _ _ hplace
  have hprot := allocated_prot (m := m) halign (n := (mappingSize sz).toNat) (by omega) (by omega)
  have hbase : base + 4096 - 4096 = base := Nat.add_sub_cancel _ _
  have hstop : (Allocation.mk (base + 4096) sz).stop = base + (mappingSize sz).toNat := by
    simp only [Allocation.stop, Allocation.usable]
    omega
  have hstart : (Allocation.mk (base + 4096) sz).start = base := hbase
  rw [hbase, hstop]
  refine ⟨?_, k.free _ _ _ hplace, ?_⟩
  · constructor
    · constructor
      · intro x hx hlt
        simp only at hx hlt
        rw [hprot, if_pos (by omega), if_pos (by omega)]
      · intro x hx hlt
        simp only [Allocation.usable] at hx hlt
        rw [hprot, if_pos (by omega), if_neg (by omega)]
      · intro x hx hlt
        simp only [Allocation.usable] at hx hlt
        rw [hprot, if_pos (by omega), if_pos (by omega)]
    · exact hfits
    · exact Nat.le_add_left _ _
    · exact Nat.dvd_add halign (Nat.dvd_refl _)
    · rw [hstart]
      exact allocated_header m base _
  · intro x hx
    exact ⟨by rw [hprot, if_neg hx], allocated_byte (by omega) hx⟩

/-! ## Freeing -/

/-- What does not touch an allocation leaves it as it is laid out. -/
theorem Laid.frame (h : Laid m a) (hprot : ∀ x, a.start ≤ x → x < a.stop → m'.prot x = m.prot x)
    (hbyte : ∀ x, a.start ≤ x → x < a.ptr → m'.byte x = m.byte x) : Laid m' a := by
  have hpage := h.page_le
  unfold Allocation.start Allocation.stop at hprot
  constructor
  · constructor
    · intro x hx hlt
      rw [hprot x hx (by omega), h.lower x hx hlt]
    · intro x hx hlt
      rw [hprot x (by omega) (by omega), h.usable x hx hlt]
    · intro x hx hlt
      rw [hprot x (by omega) (by omega), h.upper x hx hlt]
  · exact h.fits
  · exact hpage
  · exact h.aligned
  · rw [← h.header]
    apply Space.bytes_congr
    intro x hx hlt
    unfold Allocation.start at hx hlt
    exact hbyte x hx (by omega)

theorem Laid.frees (h : Laid m a) : Frees m a := by
  have hpage := h.page_le
  have hsize := mappingSize_toNat h.fits
  have hbase : 4096 ∣ a.ptr - 4096 := Nat.dvd_sub h.aligned (Nat.dvd_refl _)
  -- The lower guard page becomes readable, and everything else stays.
  generalize hm : m.mprotect 4096 (a.ptr - 4096) 4096 .read = opened
  have hbytes : ∀ x, opened.byte x = m.byte x := by
    intro x
    rw [← hm, Space.mprotect_byte]
  have hheader : opened.load (a.ptr - 4096) 8 = some (leBytes 8 (mappingSize a.size).toNat) := by
    rw [Space.load_eq, Space.bytes_congr (fun x _ _ => hbytes x)]
    · exact congrArg some h.header
    · intro x hx hlt
      rw [← hm, Space.Readable, Space.mprotect_prot hbase, if_pos (by omega),
        h.lower x hx (by omega)]
      exact .inl rfl
  have hsz : UInt64.ofNat (ofLe (leBytes 8 (mappingSize a.size).toNat)) = mappingSize a.size := by
    have hlt : (mappingSize a.size).toNat < 256 ^ 8 := (mappingSize a.size).toNat_lt
    rw [ofLe_leBytes, Nat.mod_eq_of_lt hlt, UInt64.ofNat_toNat]
  have hlen : (mappingSize a.size - (pg_size <<< 1)).toNat = a.usable := by
    rw [mappingSize, UInt64.add_sub_cancel, Allocation.usable]
  have hstore : opened.store a.ptr (List.replicate a.usable 0) =
      some (opened.put a.ptr (List.replicate a.usable 0)) := by
    apply Space.store_eq
    intro x hx hlt
    rw [List.length_replicate] at hlt
    rw [← hm, Space.Writable, Space.mprotect_prot hbase, if_neg (by omega)]
    exact h.usable x hx hlt
  have hzero : secure_free_zero m a.ptr =
      some (opened.put a.ptr (List.replicate a.usable 0), mappingSize a.size) := by
    simp [secure_free_zero, hm, hheader, hsz, hlen, hstore]
  refine ⟨_, hzero, by simp [secure_free, hzero], ?_⟩
  intro x
  simp only [Space.put, List.length_replicate, hbytes]
  split
  · rename_i hin
    rw [List.getD_replicate _ (by omega)]
  · rfl

theorem secure_free_zero_prot {ptr : Nat} (h : secure_free_zero m ptr = some (m', sz)) (x : Nat) :
    m'.prot x = (m.mprotect 4096 (ptr - 4096) 4096 .read).prot x := by
  simp only [secure_free_zero, Option.bind_eq_bind] at h
  obtain ⟨header, -, h⟩ := Option.bind_eq_some_iff.mp h
  obtain ⟨zeroed, hstore, h⟩ := Option.bind_eq_some_iff.mp h
  cases h
  rw [(Space.store_eq_some hstore).2, Space.put_prot]

/-! ## Runs of a process -/

/-- The mappings do not overlap. -/
def Apart (a b : Allocation) : Prop := a.stop ≤ b.start ∨ b.stop ≤ a.start

structure Sound (m : Space) (live : List Allocation) : Prop where
  laid : ∀ a ∈ live, Laid m a
  apart : live.Pairwise Apart

theorem Apart.symm (h : Apart a b) : Apart b a := Or.symm h

theorem Laid.mapped (h : Laid m a) {x : Nat} (hx : a.start ≤ x) (hlt : x < a.stop) :
    m.prot x ≠ none := by
  unfold Allocation.start at hx
  unfold Allocation.stop at hlt
  by_cases hlow : x < a.ptr
  · simp [h.lower x hx hlow]
  · by_cases hmid : x < a.ptr + a.usable
    · simp [h.usable x (by omega) hmid]
    · simp [h.upper x (by omega) (by omega)]

/-- A mapping of free pages does not overlap one that is laid out. -/
theorem Laid.apart (h : Laid m a) (hfree : ∀ x, b.start ≤ x → x < b.stop → m.prot x = none) :
    Apart b a := by
  have ha := a.start_lt_stop
  have hb := b.start_lt_stop
  by_contra hover
  unfold Apart at hover
  push Not at hover
  have hmapped := h.mapped (x := max a.start b.start) (Nat.le_max_left _ _) (by omega)
  exact hmapped (hfree _ (Nat.le_max_right _ _) (by omega))

variable {live : List Allocation}

theorem write_sound (hs : Sound m live) {x : Nat} {c : UInt8} (hstore : m.store x [c] = some m') :
    Sound m' live := by
  obtain ⟨hwrite, rfl⟩ := Space.store_eq_some hstore
  refine ⟨?_, hs.apart⟩
  intro a ha
  apply (hs.laid a ha).frame
  · intro y _ _
    rfl
  · intro y hy hlt
    -- A guard page cannot be written.
    have hne : y ≠ x := by
      intro heq
      have hx := hwrite x (Nat.le_refl x) (by simp)
      rw [← heq, Space.Writable, (hs.laid a ha).lower y hy hlt] at hx
      cases hx
    rcases Nat.lt_or_gt_of_ne hne with hbelow | habove
    · exact Space.put_byte_of_lt hbelow
    · exact Space.put_byte_of_ge habove

theorem malloc_sound (hs : Sound m live) (hfits : NoOverflow sz) {ptr : Nat}
    (hmalloc : secure_malloc k m sz = some (m', ptr)) : Sound m' (⟨ptr, sz⟩ :: live) := by
  obtain ⟨hlaid, hfree, hframe⟩ := secure_malloc_spec hfits hmalloc
  have hout : ∀ a ∈ live, ∀ x, a.start ≤ x → x < a.stop →
      ¬(ptr - 4096 ≤ x ∧ x < (Allocation.mk ptr sz).stop) :=
    fun a ha x hx hlt hin => (hs.laid a ha).mapped hx hlt (hfree x hin.1 hin.2)
  constructor
  · rw [List.forall_mem_cons]
    refine ⟨hlaid, ?_⟩
    intro a ha
    apply (hs.laid a ha).frame
    · intro x hx hlt
      exact (hframe x (hout a ha x hx hlt)).1
    · intro x hx hlt
      have hstop : x < a.stop := by
        unfold Allocation.stop
        omega
      exact (hframe x (hout a ha x hx hstop)).2
  · rw [List.pairwise_cons]
    exact ⟨fun a ha => (hs.laid a ha).apart hfree, hs.apart⟩

theorem free_sound (hs : Sound m live) (ha : a ∈ live) (hfree : secure_free m a.ptr = some m') :
    Sound m' (live.erase a) := by
  have hlaid := hs.laid a ha
  have hpage := hlaid.page_le
  have hbase : 4096 ∣ a.ptr - 4096 := Nat.dvd_sub hlaid.aligned (Nat.dvd_refl _)
  have hsize := mappingSize_toNat hlaid.fits
  obtain ⟨zeroed, hzero, hrun, hbyte⟩ := hlaid.frees
  rw [hrun, Option.some.injEq] at hfree
  subst hfree
  have hpairs : (a :: live.erase a).Pairwise Apart :=
    ((List.perm_cons_erase ha).pairwise_iff Apart.symm).mp hs.apart
  rw [List.pairwise_cons] at hpairs
  refine ⟨?_, hpairs.2⟩
  intro b hb
  have hout : ∀ x, b.start ≤ x → x < b.stop → ¬(a.start ≤ x ∧ x < a.stop) := by
    intro x hx hlt hin
    have happart := hpairs.1 b hb
    unfold Apart at happart
    omega
  have hstart : a.start = a.ptr - 4096 := rfl
  have hstop : a.stop = a.ptr + a.usable + 4096 := rfl
  have husable : a.usable = (rounded a.size).toNat := rfl
  apply (hs.laid b (List.mem_of_mem_erase hb)).frame
  · intro x hx hlt
    have hx' := hout x hx hlt
    rw [Space.munmap_prot hbase, if_neg (by omega), secure_free_zero_prot hzero,
      Space.mprotect_prot hbase, if_neg (by omega)]
  · intro x hx hlt
    have hstop' : b.stop = b.ptr + b.usable + 4096 := rfl
    have hx' := hout x hx (by omega)
    rw [Space.munmap_byte, hbyte, if_neg (by omega)]

theorem step_sound {h h' : Heap} {e : Event} (hfits : e.Fits) (hs : Sound h.space h.live)
    (hstep : step k h e = some h') : Sound h'.space h'.live := by
  cases e with
  | write x c =>
    obtain ⟨m, hstore, hrest⟩ := Option.bind_eq_some_iff.mp hstep
    cases hrest
    exact write_sound hs hstore
  | malloc sz =>
    obtain ⟨⟨m, ptr⟩, hmalloc, hrest⟩ := Option.bind_eq_some_iff.mp hstep
    cases hrest
    exact malloc_sound hs hfits hmalloc
  | free a =>
    rw [step] at hstep
    split at hstep
    · rename_i ha
      obtain ⟨m, hfree, hrest⟩ := Option.bind_eq_some_iff.mp hstep
      cases hrest
      exact free_sound hs ha hfree
    · cases hstep

/-! ## Copying a string -/

variable {str : List UInt8} {s : Nat}

theorem Prompted.length_lt (h : Prompted str) : str.length < BUF_SIZE := by
  obtain ⟨stream, rest, hprompt⟩ := h
  simp only [prompt, Option.bind_eq_bind] at hprompt
  obtain ⟨⟨line, left⟩, hread, hprompt⟩ := Option.bind_eq_some_iff.mp hprompt
  have hline := fgets_length_le hread
  have hcut : (line.takeWhile (· ≠ 0)).length ≤ line.length := (List.takeWhile_sublist _).length_le
  have hsize : BUF_SIZE = 4096 := rfl
  simp only [pure, Option.some.injEq, Prod.mk.injEq] at hprompt
  rw [← hprompt.1]
  split
  · rw [List.length_dropLast]
    omega
  · omega

theorem prompt_eq {stream line rest : List UInt8} (hread : fgets BUF_SIZE stream = some (line, rest))
    (hzero : 0 ∉ line) : prompt stream =
      some (if line.getLast? = some newline then line.dropLast else line, rest) := by
  simp only [prompt, hread, Option.bind_eq_bind, Option.bind_some, CString.takeWhile_ne hzero]
  rfl

/-- Lines of all lengths up to `BUF_SIZE - 1` are returned. -/
theorem prompted_of_line (hzero : 0 ∉ str) (hline : newline ∉ str) (hlen : str.length < BUF_SIZE) :
    Prompted str := by
  refine ⟨str ++ [newline], ?_⟩
  rcases Nat.lt_or_eq_of_le (Nat.succ_le_of_lt hlen) with hroom | hfull
  · have hzero' : 0 ∉ str ++ [newline] := by
      rw [List.mem_append, List.mem_singleton, not_or]
      exact ⟨hzero, by decide⟩
    refine ⟨[], ?_⟩
    rw [prompt_eq (fgets_line hline hroom []) hzero']
    simp
  · have hne : str ≠ [] := by
      intro heq
      rw [heq] at hfull
      exact absurd hfull (by decide)
    have hlast : str.getLast? ≠ some newline := fun h => hline (List.mem_of_getLast? h)
    refine ⟨[newline], ?_⟩
    rw [prompt_eq (fgets_full hline hne hfull [newline]) hzero, if_neg hlast]

/-- One byte more than the string and its terminator is copied, to a region of whole pages. -/
theorem secure_strdup_copy_spec (hstr : m.StringIn s str) (hlen : str.length < BUF_SIZE)
    (hplace : k.place m (mappingSize (UInt64.ofNat (str.length + 1))).toNat = some base) :
    ∃ c, secure_strdup_copy k m s = some c ∧ c.src = s ∧ c.n = str.length + 2 ∧
      Laid c.space ⟨c.dest, UInt64.ofNat (str.length + 1)⟩ := by
  have hsize : BUF_SIZE = 4096 := rfl
  generalize hsz : UInt64.ofNat (str.length + 1) = sz at hplace
  have hfits : NoOverflow sz := by
    rw [NoOverflow, ← hsz, UInt64.toNat_ofNat_of_lt' (by rw [UInt64.size]; omega)]
    omega
  have hstrlen : m.strlen s = some str.length := Space.strlenFrom_eq hstr (by omega)
  have hmalloc := secure_malloc_eq (by rw [mappingSize_toNat hfits]; omega) hplace
  generalize allocated m base (mappingSize sz).toNat = m' at hmalloc
  generalize base + 4096 = buf at hmalloc
  have hcopy : secure_strdup_copy k m s = some ⟨buf, s, str.length + 1 + 1, m'⟩ := by
    simp only [secure_strdup_copy, hstrlen, hsz, hmalloc, Option.bind_eq_bind, Option.bind_some]
    rfl
  exact ⟨_, hcopy, rfl, rfl, (secure_malloc_spec hfits hmalloc).1⟩

theorem not_inSource {c : Copy} (hn : c.n = str.length + 2) : ¬c.InSource str := by
  intro h
  have := h (c.src + str.length + 1) (by omega) (by omega)
  omega

/-- The bytes fit when there are no more than the region has. -/
theorem Laid.inRegion_iff {c : Copy} (h : Laid c.space ⟨c.dest, sz⟩) :
    c.InRegion ↔ c.n ≤ (rounded sz).toNat := by
  constructor
  · intro hin
    by_contra hlong
    have hguard := h.upper (c.dest + (rounded sz).toNat) (Nat.le_refl _)
      (Nat.lt_add_of_pos_right (by decide))
    have hwrite := hin (c.dest + (rounded sz).toNat) (Nat.le_add_right _ _) (by omega)
    rw [Space.Writable, hguard] at hwrite
    cases hwrite
  · intro hle x hx hlt
    exact h.usable x hx (Nat.lt_of_lt_of_le hlt (Nat.add_le_add_left hle _))

/-- The copy fits unless the string and its terminator fill whole pages. -/
theorem inRegion_iff_of_prompted {c : Copy} (hlen : str.length < BUF_SIZE)
    (hn : c.n = str.length + 2) (h : Laid c.space ⟨c.dest, UInt64.ofNat (str.length + 1)⟩) :
    c.InRegion ↔ str.length ≠ BUF_SIZE - 1 := by
  have hsize : BUF_SIZE = 4096 := rfl
  have hround := rounded_toNat h.fits
  rw [UInt64.toNat_ofNat_of_lt' (by rw [UInt64.size]; omega)] at hround
  rw [h.inRegion_iff, hround, hn]
  omega

/-- A copy that does not fit meets the guard page, and the process ends there. -/
theorem secure_strdup_faults {c : Copy} (hcopy : secure_strdup_copy k m s = some c)
    (hout : ¬c.InRegion) : secure_strdup k m s = none := by
  simp only [secure_strdup, hcopy, Option.bind_eq_bind, Option.bind_some]
  cases hload : c.space.load c.src c.n with
  | none => rfl
  | some copied =>
    have hlen : copied.length = c.n := by
      unfold Space.load at hload
      split at hload
      · rw [← Option.some.inj hload, Space.length_bytes]
      · cases hload
    cases hstore : c.space.store c.dest copied with
    | none => simp [hstore]
    | some m' =>
      have hwrite := (Space.store_eq_some hstore).1
      rw [hlen] at hwrite
      exact absurd hwrite hout

/-- No string is copied inside its own bytes, and one that fills the buffer of `prompt` is copied into
the upper guard page. Whatever else a process does, a region has the size that was asked for, and is
freed with the size of its mapping and with its bytes zeroed. -/
theorem secure_memory_spec (k : Kernel 4096) (m : Space) :
    (∀ s str base, Prompted str → m.StringIn s str →
      k.place m (mappingSize (UInt64.ofNat (str.length + 1))).toNat = some base →
      ∃ c, secure_strdup_copy k m s = some c ∧ ¬c.InSource str ∧
        (c.InRegion ↔ str.length ≠ BUF_SIZE - 1)) ∧
    ∀ events h, (∀ e ∈ events, e.Fits) → run (step k) events ⟨m, []⟩ = some h →
      (∀ sz base, NoOverflow sz → k.place h.space (mappingSize sz).toNat = some base →
        ∃ m', secure_malloc k h.space sz = some (m', base + 4096)) ∧
      ∀ a ∈ h.live, a.size.toNat ≤ a.usable ∧ Guarded h.space a ∧ Frees h.space a := by
  constructor
  · intro s str base hprompted hstr hplace
    obtain ⟨c, hcopy, -, hn, hlaid⟩ := secure_strdup_copy_spec hstr hprompted.length_lt hplace
    exact ⟨c, hcopy, not_inSource hn, inRegion_iff_of_prompted hprompted.length_lt hn hlaid⟩
  · intro events h hall hrun
    have hsound : Sound h.space h.live := by
      have hempty : Sound m [] := ⟨by simp, List.Pairwise.nil⟩
      exact run_invariant_of_forall (fun _ _ _ hfits hs hstep => step_sound hfits hs hstep) hall
        hempty hrun
    constructor
    · intro sz base hfits hplace
      exact ⟨_, secure_malloc_eq (by rw [mappingSize_toNat hfits]; omega) hplace⟩
    · intro a ha
      have hlaid := hsound.laid a ha
      exact ⟨(rounded_bounds hlaid.fits).1, hlaid.toGuarded, hlaid.frees⟩

/-! ### A process with one string -/

/-- New mappings always go to the same place. -/
def fixedPlace : Kernel 4096 where
  place m n := if ∀ i < n, m.prot (65536 + i) = none then some 65536 else none
  aligned := by
    intro m n a h
    split at h
    · cases h
      decide
    · cases h
  free := by
    intro m n a h x hx hlt
    split at h
    · rename_i hall
      cases h
      have := hall (x - 65536) (by omega)
      rwa [Nat.add_sub_cancel' hx] at this
    · cases h

/-- A string in two pages that can be written. -/
def holding (str : List UInt8) : Space :=
  (Space.map ⟨fun _ => 0, fun _ => none⟩ 4096 8192 .write).put 4096 (str ++ [0])

theorem holding_stringIn (hzero : 0 ∉ str) (hlen : str.length < BUF_SIZE) :
    (holding str).StringIn 4096 str := by
  have hsize : BUF_SIZE = 4096 := rfl
  refine ⟨hzero, ?_⟩
  have hbytes := Space.bytes_put (Space.map ⟨fun _ => 0, fun _ => none⟩ 4096 8192 .write) 4096
    (str ++ [0])
  rw [List.length_append, List.length_singleton] at hbytes
  rw [← hbytes]
  apply Space.load_eq
  intro x hx hlt
  exact .inr (if_pos (by omega))

theorem fixedPlace_holding (str : List UInt8) (n : Nat) :
    fixedPlace.place (holding str) n = some 65536 := by
  apply if_pos
  intro i _
  exact if_neg (by omega)

/-- One character, and a region of one byte. -/
theorem secure_memory_spec_short :
    (∃ c, secure_strdup_copy fixedPlace (holding [0x61]) 4096 = some c ∧ ¬c.InSource [0x61] ∧
      c.InRegion) ∧
    ∃ h a, run (step fixedPlace) [.malloc 1] ⟨holding [0x61], []⟩ = some h ∧ a ∈ h.live ∧
      Guarded h.space a ∧ Frees h.space a := by
  have hspec := secure_memory_spec fixedPlace (holding [0x61])
  constructor
  · obtain ⟨c, hcopy, hsource, hregion⟩ := hspec.1 4096 [0x61] 65536
      (prompted_of_line (by decide) (by decide) (by decide))
      (holding_stringIn (by decide) (by decide)) (fixedPlace_holding _ _)
    exact ⟨c, hcopy, hsource, hregion.mpr (by decide)⟩
  · have hmalloc : secure_malloc fixedPlace (holding [0x61]) 1 = _ :=
      secure_malloc_eq (by decide) (fixedPlace_holding [0x61] _)
    have hrun : run (step fixedPlace) [.malloc 1] ⟨holding [0x61], []⟩ =
        some ⟨allocated (holding [0x61]) 65536 (mappingSize 1).toNat, [⟨65536 + 4096, 1⟩]⟩ := by
      simp [step, hmalloc]
    have hfits : ∀ e ∈ [Event.malloc 1], e.Fits := by
      intro e he
      rw [List.mem_singleton.mp he, Event.Fits]
      decide
    have hlive := (hspec.2 _ _ hfits hrun).2 _ List.mem_cons_self
    exact ⟨_, _, hrun, List.mem_cons_self, hlive.2⟩

/-- The empty string is copied from behind its terminator, and the longest string that `prompt` returns
also into a guard page. -/
theorem longest_string_overflows :
    let longest : List UInt8 := List.replicate 4095 0x61
    (Prompted [] ∧ ∃ c, secure_strdup_copy fixedPlace (holding []) 4096 = some c ∧ ¬c.InSource []) ∧
    Prompted longest ∧ ∃ c, secure_strdup_copy fixedPlace (holding longest) 4096 = some c ∧
      ¬c.InSource longest ∧ ¬c.InRegion := by
  have hcopy : ∀ str : List UInt8, 0 ∉ str → str.length < BUF_SIZE → ∃ c,
      secure_strdup_copy fixedPlace (holding str) 4096 = some c ∧ ¬c.InSource str ∧
        (c.InRegion ↔ str.length ≠ BUF_SIZE - 1) := by
    intro str hzero hlen
    obtain ⟨c, hcopy, -, hn, hlaid⟩ := secure_strdup_copy_spec (holding_stringIn hzero hlen) hlen
      (fixedPlace_holding str _)
    exact ⟨c, hcopy, not_inSource hn, inRegion_iff_of_prompted hlen hn hlaid⟩
  have hlength : (List.replicate 4095 (0x61 : UInt8)).length = 4095 := List.length_replicate
  have hmem : ∀ c : UInt8, c ≠ 0x61 → c ∉ List.replicate 4095 (0x61 : UInt8) :=
    fun c hne hc => hne (List.eq_of_mem_replicate hc)
  have hlen : (List.replicate 4095 (0x61 : UInt8)).length < BUF_SIZE := by
    rw [hlength]
    decide
  intro longest
  constructor
  · obtain ⟨c, hc, hsource, -⟩ := hcopy [] (by decide) (by decide)
    exact ⟨prompted_of_line (by decide) (by decide) (by decide), c, hc, hsource⟩
  · obtain ⟨c, hc, hsource, hregion⟩ := hcopy longest (hmem 0 (by decide)) hlen
    refine ⟨prompted_of_line (hmem 0 (by decide)) (hmem newline (by decide)) hlen, c, hc, hsource, ?_⟩
    rw [hregion, hlength]
    exact fun h => h rfl

end CtfChallenges.Ripc4.SecureMemory
