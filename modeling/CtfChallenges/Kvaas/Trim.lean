import CtfChallenges.Framework.CString
import CtfChallenges.Framework.Strtol
import Mathlib.Data.List.DropRight

/-!
# Trimming in kvaas

`trim_inplace` of `prompt.c`, with the addresses that it reads and writes. The memory is the block of
the buffer and whatever lies around it.
-/

namespace CtfChallenges.Kvaas
open Framework CString Strtol

/-- The addresses of `n` bytes. -/
def addresses (p n : Nat) : List Nat := (List.range n).map (p + ·)

/-- `while(isspace(*end)) end--; end++;`, with `end` at `k - 1`. -/
def backwards (mem : Mem) : Nat → List Nat → Option (Nat × List Nat)
  | 0, _ => none
  | k + 1, touched => do
    let c ← mem[k]?
    if isspace c then backwards mem k (k :: touched) else return (k + 1, k :: touched)

/-- `while(isspace(*begin)) begin++;`, for as many bytes as there are. -/
def forwards (mem : Mem) : Nat → Nat → List Nat → Option (Nat × List Nat)
  | 0, _, _ => none
  | fuel + 1, p, touched => do
    let c ← mem[p]?
    if isspace c then forwards mem fuel (p + 1) (p :: touched) else return (p, p :: touched)

/-- The memory and all addresses that have been touched, with no value for an access outside of the
memory. -/
def trim_inplace (mem : Mem) (buf : Nat) : Option (Mem × List Nat) := do
  let s ← cstr mem buf
  let touched := addresses buf (s.length + 1)
  let (stop, touched) ← backwards mem (buf + s.length) touched
  let (start, touched) ← forwards mem mem.length buf touched
  if stop ≤ start then
    let mem ← store mem buf 0
    return (mem, buf :: touched)
  else
    let len := stop - start
    let (mem, touched) :=
      if buf ≠ start then
        (overwrite mem buf ((mem.drop start).take len),
          addresses start len ++ addresses buf len ++ touched)
      else (mem, touched)
    let mem ← store mem (buf + len) 0
    return (mem, (buf + len) :: touched)

/-- The string without the white space at both ends. -/
def trimmed (s : List UInt8) : List UInt8 := (s.dropWhile isspace).rdropWhile isspace

/-- Trimming the string at `buf` touches its bytes and its terminator only, leaves the trimmed string
there, and changes nothing else. -/
def TrimsInside (mem : Mem) (buf : Nat) (s : List UInt8) : Prop :=
  ∃ mem' touched, trim_inplace mem buf = some (mem', touched) ∧
    (∀ p ∈ touched, buf ≤ p ∧ p ≤ buf + s.length) ∧ StringAt mem' buf (trimmed s) ∧
    mem'.take buf = mem.take buf ∧
    mem'.drop (buf + s.length + 1) = mem.drop (buf + s.length + 1)

variable {mem : Mem} {buf k j : Nat} {touched : List Nat} {s : List UInt8}

/-- The scan from the back stops behind the last other character. -/
theorem backwards_eq {c : UInt8} (touched : List Nat) (hc : mem[j]? = some c)
    (hother : isspace c = false) (hj : j < k)
    (hspace : ∀ i, j < i → i < k → ∃ d, mem[i]? = some d ∧ isspace d) :
    ∃ touched', backwards mem k touched = some (j + 1, touched') ∧
      ∀ p ∈ touched', p ∈ touched ∨ (j ≤ p ∧ p < k) := by
  induction k generalizing touched with
  | zero => cases hj
  | succ k ih =>
    rcases Nat.lt_or_eq_of_le (Nat.le_of_lt_succ hj) with hlt | rfl
    · obtain ⟨d, hd, hdspace⟩ := hspace k hlt (Nat.lt_succ_self k)
      obtain ⟨touched', hrun, hin⟩ := ih (k :: touched) hlt
        fun i hji hik => hspace i hji (Nat.lt_succ_of_lt hik)
      refine ⟨touched', by simp [backwards, hd, hdspace, hrun], fun p hp => ?_⟩
      rcases hin p hp with hmem | hrange
      · rcases List.mem_cons.mp hmem with rfl | hmem
        · exact .inr ⟨Nat.le_of_lt hlt, Nat.lt_succ_self p⟩
        · exact .inl hmem
      · exact .inr ⟨hrange.1, Nat.lt_succ_of_lt hrange.2⟩
    · refine ⟨j :: touched, by simp [backwards, hc, hother], fun p hp => ?_⟩
      rcases List.mem_cons.mp hp with rfl | hmem
      · exact .inr ⟨Nat.le_refl p, Nat.lt_succ_self p⟩
      · exact .inl hmem

theorem mem_of_backwards {stop : Nat} {touched' : List Nat}
    (h : backwards mem k touched = some (stop, touched')) : ∀ p ∈ touched, p ∈ touched' := by
  induction k generalizing touched with
  | zero => cases h
  | succ k ih =>
    intro p hp
    simp only [backwards, Option.bind_eq_bind, Option.bind_eq_some_iff] at h
    obtain ⟨c, -, h⟩ := h
    split at h
    · exact ih h p (List.mem_cons_of_mem k hp)
    · cases h
      exact List.mem_cons_of_mem k hp

theorem mem_of_forwards {fuel p start : Nat} {touched' : List Nat}
    (h : forwards mem fuel p touched = some (start, touched')) : ∀ q ∈ touched, q ∈ touched' := by
  induction fuel generalizing p touched with
  | zero => cases h
  | succ fuel ih =>
    intro q hq
    simp only [forwards, Option.bind_eq_bind, Option.bind_eq_some_iff] at h
    obtain ⟨c, -, h⟩ := h
    split at h
    · exact ih h q (List.mem_cons_of_mem _ hq)
    · cases h
      exact List.mem_cons_of_mem _ hq

/-- Where there is only white space, the scan from the back goes on in front of it. -/
theorem backwards_blank {stop : Nat} {touched' : List Nat} (hj : j ≤ k)
    (hspace : ∀ i, j ≤ i → i < k → ∃ d, mem[i]? = some d ∧ isspace d)
    (h : backwards mem k touched = some (stop, touched')) : ∃ p ∈ touched', p < j := by
  induction k generalizing touched with
  | zero => cases h
  | succ k ih =>
    simp only [backwards, Option.bind_eq_bind, Option.bind_eq_some_iff] at h
    obtain ⟨c, hc, h⟩ := h
    rcases Nat.lt_or_ge k j with hlt | hge
    · refine ⟨k, ?_, hlt⟩
      split at h
      · exact mem_of_backwards h k List.mem_cons_self
      · cases h
        exact List.mem_cons_self
    · obtain ⟨d, hd, hdspace⟩ := hspace k hge (Nat.lt_succ_self k)
      rw [hc, Option.some.injEq] at hd
      rw [hd, if_pos hdspace] at h
      exact ih hge (fun i hji hik => hspace i hji (Nat.lt_succ_of_lt hik)) h

/-- The scan from the front stops at the first other character. -/
theorem forwards_eq {fuel p : Nat} {c : UInt8} (touched : List Nat) (hc : mem[j]? = some c)
    (hother : isspace c = false) (hp : p ≤ j)
    (hspace : ∀ i, p ≤ i → i < j → ∃ d, mem[i]? = some d ∧ isspace d)
    (hfuel : j - p < fuel) :
    ∃ touched', forwards mem fuel p touched = some (j, touched') ∧
      ∀ q ∈ touched', q ∈ touched ∨ (p ≤ q ∧ q ≤ j) := by
  induction fuel generalizing p touched with
  | zero => cases hfuel
  | succ fuel ih =>
    rcases Nat.lt_or_eq_of_le hp with hlt | rfl
    · obtain ⟨d, hd, hdspace⟩ := hspace p (Nat.le_refl p) hlt
      obtain ⟨touched', hrun, hin⟩ := ih (p :: touched) hlt
        (fun i hpi hij => hspace i (Nat.le_of_succ_le hpi) hij) (by omega)
      refine ⟨touched', by simp [forwards, hd, hdspace, hrun], fun q hq => ?_⟩
      rcases hin q hq with hmem | hrange
      · rcases List.mem_cons.mp hmem with rfl | hmem
        · exact .inr ⟨Nat.le_refl q, Nat.le_of_lt hlt⟩
        · exact .inl hmem
      · exact .inr ⟨Nat.le_of_succ_le hrange.1, hrange.2⟩
    · refine ⟨p :: touched, by simp [forwards, hc, hother], fun q hq => ?_⟩
      rcases List.mem_cons.mp hq with rfl | hmem
      · exact .inr ⟨Nat.le_refl q, Nat.le_refl q⟩
      · exact .inl hmem

theorem trimmed_eq_nil_iff : trimmed s = [] ↔ ∀ c ∈ s, isspace c := by
  rw [trimmed, List.rdropWhile_eq_nil_iff]
  constructor
  · intro h c hc
    rw [← List.takeWhile_append_dropWhile (p := isspace) (l := s), List.mem_append] at hc
    rcases hc with hfront | hback
    · exact List.mem_takeWhile_imp hfront
    · exact h c hback
  · intro h c hc
    exact h c ((List.dropWhile_suffix isspace).mem hc)

/-- A string is white space, the trimmed string, and white space. -/
theorem trimmed_split (s : List UInt8) : ∃ front back, s = front ++ (trimmed s ++ back) ∧
    (∀ c ∈ front, isspace c) ∧ ∀ c ∈ back, isspace c := by
  refine ⟨s.takeWhile isspace, (s.dropWhile isspace).rtakeWhile isspace, ?_,
    fun c hc => List.mem_takeWhile_imp hc, fun c hc => List.mem_rtakeWhile_imp hc⟩
  rw [trimmed, List.rdropWhile_append_rtakeWhile, List.takeWhile_append_dropWhile]

theorem trimmed_getLast (h : trimmed s ≠ []) : isspace ((trimmed s).getLast h) = false := by
  exact Bool.eq_false_iff.mpr (List.rdropWhile_last_not isspace (s.dropWhile isspace) h)

theorem trimmed_head (h : trimmed s ≠ []) : isspace ((trimmed s).head h) = false := by
  have hfront : trimmed s <+: s.dropWhile isspace := List.rdropWhile_prefix isspace _
  have hne : s.dropWhile isspace ≠ [] := fun heq => h (List.prefix_nil.mp (heq ▸ hfront))
  rw [hfront.head h]
  exact List.head_dropWhile_not isspace hne

theorem getElem?_string {rest : List UInt8} (h : mem.drop buf = s ++ rest) {i : Nat}
    (hi : i < s.length) : mem[buf + i]? = some s[i] := by
  rw [← List.getElem?_drop, h, List.getElem?_append_left hi, List.getElem?_eq_getElem hi]

theorem overwrite_self {bs : List UInt8} (h : bs <+: mem.drop buf) : overwrite mem buf bs = mem := by
  obtain ⟨rest, hrest⟩ := h
  have hdrop : mem.drop (buf + bs.length) = rest := by
    rw [← List.drop_drop, ← hrest, List.drop_left]
  rw [overwrite, hdrop, List.append_assoc, hrest, List.take_append_drop]

theorem mem_addresses {p n q : Nat} : q ∈ addresses p n ↔ p ≤ q ∧ q < p + n := by
  simp only [addresses, List.mem_map, List.mem_range]
  constructor
  · rintro ⟨i, hi, rfl⟩
    omega
  · intro h
    exact ⟨q - p, by omega, by omega⟩

/-- Both scans of a string with some other character stop at the ends of the trimmed string. -/
theorem scans_eq {front core back rest : List UInt8}
    (hdrop : mem.drop buf = front ++ (core ++ back) ++ rest)
    (hfront : ∀ c ∈ front, isspace c) (hback : ∀ c ∈ back, isspace c) (hne : core ≠ [])
    (hhead : isspace (core.head hne) = false) (hlast : isspace (core.getLast hne) = false)
    (touched : List Nat) :
    ∃ touched₁ touched₂,
      backwards mem (buf + (front ++ (core ++ back)).length) touched =
        some (buf + front.length + core.length, touched₁) ∧
      forwards mem mem.length buf touched₁ = some (buf + front.length, touched₂) ∧
      ∀ p ∈ touched₂, p ∈ touched ∨ (buf ≤ p ∧ p ≤ buf + (front ++ (core ++ back)).length) := by
  have hpos := List.length_pos_iff.mpr hne
  have hlen : (front ++ (core ++ back)).length = front.length + core.length + back.length := by
    simp [Nat.add_assoc]
  have hcore : mem.drop (buf + front.length) = core ++ (back ++ rest) := by
    rw [← List.drop_drop, hdrop, List.append_assoc, List.drop_left, List.append_assoc]
  have hrest : mem.drop (buf + front.length + core.length) = back ++ rest := by
    rw [← List.drop_drop, hcore, List.drop_left]
  have hspace_front (i : Nat) (hi : buf ≤ i) (hi' : i < buf + front.length) :
      ∃ d, mem[i]? = some d ∧ isspace d := by
    obtain ⟨k, rfl⟩ := Nat.exists_eq_add_of_le hi
    have hk : k < front.length := by omega
    rw [List.append_assoc] at hdrop
    exact ⟨front[k], getElem?_string hdrop hk, hfront _ (List.getElem_mem hk)⟩
  have hspace_back (i : Nat) (hi : buf + front.length + core.length ≤ i)
      (hi' : i < buf + (front ++ (core ++ back)).length) : ∃ d, mem[i]? = some d ∧ isspace d := by
    obtain ⟨k, rfl⟩ := Nat.exists_eq_add_of_le hi
    have hk : k < back.length := by omega
    exact ⟨back[k], getElem?_string hrest hk, hback _ (List.getElem_mem hk)⟩
  have hfirst : mem[buf + front.length]? = some (core.head hne) := by
    rw [List.head_eq_getElem]
    exact getElem?_string hcore hpos
  have hend : mem[buf + front.length + (core.length - 1)]? = some (core.getLast hne) := by
    rw [List.getLast_eq_getElem]
    exact getElem?_string hcore (by omega)
  obtain ⟨touched₁, hstop, hin₁⟩ := backwards_eq touched
    (k := buf + (front ++ (core ++ back)).length) hend hlast (by omega)
    fun i hji hik => hspace_back i (by omega) hik
  have hstart : buf + front.length < mem.length :=
    (List.getElem?_eq_some_iff.mp hfirst).1
  have hfuel : buf + front.length - buf < mem.length := by omega
  obtain ⟨touched₂, hgo, hin₂⟩ := forwards_eq touched₁ hfirst hhead
    (Nat.le_add_right buf front.length) hspace_front hfuel
  have hsub : buf + front.length + (core.length - 1) + 1 = buf + front.length + core.length := by
    omega
  rw [hsub] at hstop
  refine ⟨touched₁, touched₂, hstop, hgo, fun p hp => ?_⟩
  rcases hin₂ p hp with hp | hp
  · rcases hin₁ p hp with hp | hp
    · exact .inl hp
    · right
      omega
  · right
    omega

/-- The characters are moved to the front unless they are there already. -/
theorem move_eq {a : Nat} {core rest : List UInt8} (touched : List Nat)
    (hcore : mem.drop (buf + a) = core ++ rest) :
    ∃ touched',
      (if buf ≠ buf + a then
        (overwrite mem buf ((mem.drop (buf + a)).take core.length),
          addresses (buf + a) core.length ++ addresses buf core.length ++ touched)
      else (mem, touched)) = (overwrite mem buf core, touched') ∧
      ∀ p ∈ touched', p ∈ touched ∨ (buf ≤ p ∧ p < buf + a + core.length) := by
  by_cases ha : a = 0
  · subst ha
    rw [Nat.add_zero] at hcore
    refine ⟨touched, ?_, fun p hp => .inl hp⟩
    rw [if_neg (by simp), overwrite_self ⟨rest, hcore.symm⟩]
  · refine ⟨addresses (buf + a) core.length ++ addresses buf core.length ++ touched, ?_, ?_⟩
    · rw [if_pos (by omega), hcore, List.take_left]
    · intro p hp
      simp only [List.mem_append, mem_addresses] at hp
      rcases hp with (hp | hp) | hp
      · right
        omega
      · right
        omega
      · exact .inl hp

theorem trim_inplace_eq (h : StringAt mem buf s) (hother : trimmed s ≠ []) : TrimsInside mem buf s := by
  have hcstr := cstr_eq_some h
  have hlt := h.length_lt
  obtain ⟨hnul, rest, hdrop⟩ := h
  obtain ⟨rest', hrest'⟩ : ∃ rest', 0 :: rest = rest' := ⟨_, rfl⟩
  rw [hrest'] at hdrop
  obtain ⟨front, back, hs, hfront, hback⟩ := trimmed_split s
  have hlast := trimmed_getLast hother
  have hhead := trimmed_head hother
  unfold TrimsInside
  generalize trimmed s = core at hother hs hlast hhead ⊢
  subst hs
  obtain ⟨touched₁, touched₂, hstop, hstart, hin⟩ := scans_eq hdrop hfront hback hother hhead hlast
    (addresses buf ((front ++ (core ++ back)).length + 1))
  have hpos := List.length_pos_iff.mpr hother
  have hlen : (front ++ (core ++ back)).length = front.length + core.length + back.length := by
    simp [Nat.add_assoc]
  have hcore : mem.drop (buf + front.length) = core ++ (back ++ rest') := by
    rw [← List.drop_drop, hdrop, List.append_assoc, List.drop_left, List.append_assoc]
  have hsub : buf + front.length + core.length - (buf + front.length) = core.length :=
    Nat.add_sub_cancel_left _ _
  have hroom : buf + core.length < (overwrite mem buf core).length := by
    rw [length_overwrite (by omega)]
    omega
  have hresult : store (overwrite mem buf core) (buf + core.length) 0 =
      some (overwrite mem buf (core ++ [0])) := by
    rw [store_eq hroom, overwrite_append (by omega)]
  obtain ⟨touched₃, hmove, hin₃⟩ := move_eq touched₂ hcore
  refine ⟨overwrite mem buf (core ++ [0]), (buf + core.length) :: touched₃, ?_, ?_, ?_, ?_, ?_⟩
  · simp only [trim_inplace, hcstr, Option.bind_eq_bind, Option.bind_some, hstop, hstart, hsub]
    rw [if_neg (by omega), hmove, hresult]
    rfl
  · intro p hp
    rcases List.mem_cons.mp hp with rfl | hp
    · omega
    · rcases hin₃ p hp with hp | hp
      · rcases hin p hp with hp | hp
        · have := mem_addresses.mp hp
          omega
        · exact hp
      · omega
  · have hnul' : (0 : UInt8) ∉ core := fun hmem =>
      hnul (List.mem_append_right _ (List.mem_append_left _ hmem))
    refine ⟨hnul', mem.drop (buf + (core ++ [0]).length), ?_⟩
    rw [drop_overwrite_self (by omega), List.append_assoc]
    rfl
  · exact take_overwrite (by omega) (Nat.le_refl _)
  · apply drop_overwrite (by omega)
    rw [List.length_append, List.length_singleton]
    omega

/-- The scan from the back stays in the string exactly when the string has more than white space. -/
theorem trims_inside_iff (h : StringAt mem buf s) :
    TrimsInside mem buf s ↔ ∃ c ∈ s, isspace c = false := by
  constructor
  · rintro ⟨mem', touched, htrim, hin, -⟩
    by_contra hblank
    have hall : ∀ c ∈ s, isspace c := by simpa using hblank
    have hcstr := cstr_eq_some h
    obtain ⟨-, rest, hdrop⟩ := h
    have hspace (i : Nat) (hi : buf ≤ i) (hi' : i < buf + s.length) :
        ∃ d, mem[i]? = some d ∧ isspace d := by
      obtain ⟨k, rfl⟩ := Nat.exists_eq_add_of_le hi
      have hk : k < s.length := by omega
      exact ⟨s[k], getElem?_string hdrop hk, hall _ (List.getElem_mem hk)⟩
    simp only [trim_inplace, hcstr, Option.bind_eq_bind, Option.bind_some,
      Option.bind_eq_some_iff] at htrim
    obtain ⟨⟨stop, touched₁⟩, hstop, ⟨start, touched₂⟩, hstart, htrim⟩ := htrim
    obtain ⟨p, hp, hlow⟩ := backwards_blank (Nat.le_add_right buf s.length) hspace hstop
    have hp₂ := mem_of_forwards hstart p hp
    have hp₃ : p ∈ touched := by
      split at htrim
      · simp only [Option.bind_eq_some_iff] at htrim
        obtain ⟨_, -, htrim⟩ := htrim
        cases htrim
        exact List.mem_cons_of_mem _ hp₂
      · simp only [Option.bind_eq_some_iff] at htrim
        obtain ⟨_, -, htrim⟩ := htrim
        cases htrim
        apply List.mem_cons_of_mem
        split
        · exact List.mem_append_right _ hp₂
        · exact hp₂
    exact absurd (hin p hp₃).1 (Nat.not_le.mpr hlow)
  · rintro ⟨c, hc, hother⟩
    apply trim_inplace_eq h
    intro hnil
    rw [trimmed_eq_nil_iff.mp hnil c hc] at hother
    cases hother

theorem trims_inside_iff_spaces :
    StringAt [0x20, 0x61, 0x20, 0x62, 0x0a, 0x00, 0x63] 0 [0x20, 0x61, 0x20, 0x62, 0x0a] ∧
    TrimsInside [0x20, 0x61, 0x20, 0x62, 0x0a, 0x00, 0x63] 0 [0x20, 0x61, 0x20, 0x62, 0x0a] := by
  have hstring : StringAt [0x20, 0x61, 0x20, 0x62, 0x0a, 0x00, 0x63] 0 [0x20, 0x61, 0x20, 0x62, 0x0a] :=
    ⟨by decide, [0x63], rfl⟩
  exact ⟨hstring, (trims_inside_iff hstring).mpr ⟨0x61, by decide, rfl⟩⟩

/-- A bare newline: the byte in front of the buffer is read, or the access fails. -/
theorem bare_newline_reads_below : (StringAt [0x41, 0x0a, 0x00] 1 [0x0a] ∧
      ¬TrimsInside [0x41, 0x0a, 0x00] 1 [0x0a]) ∧
    trim_inplace [0x0a, 0x00] 0 = none := by
  have hrun : trim_inplace [0x41, 0x0a, 0x00] 1 = some ([0x41, 0x00, 0x00], [1, 2, 1, 0, 1, 1, 2]) := by
    decide
  refine ⟨⟨⟨by decide, [], rfl⟩, ?_⟩, by decide⟩
  rintro ⟨mem', touched, htrim, hin, -⟩
  rw [hrun] at htrim
  cases htrim
  exact absurd (hin 0 (by decide)).1 (by decide)

end CtfChallenges.Kvaas
