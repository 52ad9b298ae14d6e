import CtfChallenges.Framework.Run
import CtfChallenges.Kvaas.Store
import CtfChallenges.Kvaas.Trim

/-!
# Number entry in kvaas

`set_node_uint` and `set_node_int` of `nodes.c` on the lines that their prompts read, with the `errno`
that all entries of a process share.
-/

namespace CtfChallenges.Kvaas
open Framework Strtol CString

def ERANGE : Nat := 34

/-- What `prompt_user` returns for a line: the string in the buffer, trimmed. -/
def answer (line : List UInt8) : List UInt8 := trimmed (line.takeWhile (· ≠ 0))

/-- The number that `set_node_uint` stores, with none where it prints an error, and `errno`. -/
def set_node_uint (errno : Nat) (buf : List UInt8) : Option (BitVec 64) × Nat :=
  let val := strtoul 0 buf
  let errno := if val.erange then ERANGE else errno
  if buf.head? = some 0x2d ∨ (val.value = ULONG_MAX ∧ errno = ERANGE) ∨ val.endptr ≠ [] then
    (none, errno)
  else (some (BitVec.ofNat 64 val.value), errno)

/-- The number that `set_node_int` stores, with none where it prints an error, and `errno`. -/
def set_node_int (errno : Nat) (buf : List UInt8) : Option (BitVec 64) × Nat :=
  let val := strtol 0 buf
  let errno := if val.erange then ERANGE else errno
  if (val.value = LONG_MAX ∧ errno = ERANGE) ∨ val.endptr ≠ [] then (none, errno)
  else (some (BitVec.ofInt 64 val.value), errno)

/-- The lines that the prompts of a `set_func` read, and the time. -/
structure Lines where
  first : List UInt8
  second : List UInt8
  now : Int

/-- A command with the names that its key prompts return and the lines of its `set_func`. -/
inductive Input
  | add (name : List UInt8) (type : node_type) (lines : Lines)
  | edit (name : List UInt8) (lines : Lines)
  | copy (source new : List UInt8)
  | delete (name : List UInt8)

structure Process where
  store : Store
  errno : Nat

def Process.initial : Process := ⟨.empty, 0⟩

/-- The number of an entry for a node of this type. -/
def enter (errno : Nat) (type : node_type) (buf : List UInt8) : Option (BitVec 64) × Nat :=
  match type with
  | .NODE_UINT => set_node_uint errno buf
  | .NODE_INT => set_node_int errno buf
  | _ => (none, errno)

/-- What a `set_func` for this type gets from its lines. -/
def Lines.answers (lines : Lines) (errno : Nat) (type : node_type) : Answers where
  num := (enter errno type (answer lines.first)).1
  first := answer lines.first
  second := answer lines.second
  now := lines.now

/-- The type of the node that a command sets. -/
def Process.sets (p : Process) : Input → Option node_type
  | .add _ type _ => some type
  | .edit name _ => do
    let n ← ← get_node_by_name p.store name
    let node ← p.store.nodes.load n
    return node.payload.type
  | _ => none

def Input.lines : Input → Lines
  | .add _ _ lines => lines
  | .edit _ lines => lines
  | _ => ⟨[], [], 0⟩

/-- The command for the store, where `type` is the type of the node that is set. -/
def Input.command (input : Input) (errno : Nat) (type : node_type) : Command :=
  match input with
  | .add name t lines => .add name t (lines.answers errno type)
  | .edit name lines => .edit name (lines.answers errno type)
  | .copy source new => .copy source new
  | .delete name => .delete name

/-- A command, with the new `errno`. Where nothing is set, no number is read. -/
def Process.step (p : Process) (input : Input) : Option Process := do
  let type := (p.sets input).getD .NODE_TIME
  let store ← Kvaas.step p.store (input.command p.errno type)
  return ⟨store, (enter p.errno type (answer input.lines.first)).2⟩

/-- The entry is taken exactly for the numerals without a minus sign up to `2 ^ 64 - 1`, and for their
values. -/
def TakesUint (errno : Nat) (line : List UInt8) : Prop :=
  ∀ v, (set_node_uint errno (answer line)).1 = some v ↔
    ∃ m, Numeral (answer line) false m ∧ m ≤ ULONG_MAX ∧ v = BitVec.ofNat 64 m

/-- The entry is taken exactly for the numerals from `-2 ^ 63` to `2 ^ 63 - 1`, and for their
values. -/
def TakesInt (errno : Nat) (line : List UInt8) : Prop :=
  ∀ v, (set_node_int errno (answer line)).1 = some v ↔
    ∃ neg m, Numeral (answer line) neg m ∧ LONG_MIN ≤ signed neg m ∧ signed neg m ≤ LONG_MAX ∧
      v = BitVec.ofInt 64 (signed neg m)

/-- The conversion of an entry is out of range. -/
def outOfRange (type : node_type) (buf : List UInt8) : Bool :=
  match type with
  | .NODE_UINT => (strtoul 0 buf).erange
  | .NODE_INT => (strtol 0 buf).erange
  | _ => false

/-- Some command of a run from the start has entered a number out of range. -/
def OutOfRangeBefore (history : List Input) : Prop :=
  ∃ p ∈ visited Process.step history Process.initial, ∃ type, p.1.sets p.2 = some type ∧
    outOfRange type (answer p.2.lines.first)

theorem enter_errno (errno : Nat) (type : node_type) (buf : List UInt8) :
    (enter errno type buf).2 = if outOfRange type buf then ERANGE else errno := by
  cases type with
  | NODE_UINT =>
    simp only [enter, set_node_uint, outOfRange, apply_ite Prod.snd, ite_self]
    rfl
  | NODE_INT =>
    simp only [enter, set_node_int, outOfRange, apply_ite Prod.snd, ite_self]
    rfl
  | _ => rfl

theorem step_errno {p p' : Process} {input : Input} (h : p.step input = some p') :
    p'.errno = ERANGE ↔ p.errno = ERANGE ∨ ∃ type, p.sets input = some type ∧
      outOfRange type (answer input.lines.first) := by
  simp only [Process.step, Option.bind_eq_bind, Option.bind_eq_some_iff] at h
  obtain ⟨store, -, h⟩ := h
  cases h
  simp only [enter_errno]
  cases hsets : p.sets input with
  | none => simp [outOfRange]
  | some type =>
    cases hrange : outOfRange type (answer input.lines.first) with
    | false => simp [hrange]
    | true => simp [hrange]

/-- `errno` tells whether an earlier number was out of range. -/
theorem run_errno {history : List Input} {p p' : Process} (h : run Process.step history p = some p') :
    p'.errno = ERANGE ↔ p.errno = ERANGE ∨ ∃ q ∈ visited Process.step history p, ∃ type,
      q.1.sets q.2 = some type ∧ outOfRange type (answer q.2.lines.first) := by
  induction history generalizing p with
  | nil =>
    cases h
    simp [visited]
  | cons input history ih =>
    obtain ⟨mid, hmid, hrest⟩ := Option.bind_eq_some_iff.mp h
    rw [ih hrest, step_errno hmid, visited, hmid, Option.elim_some]
    simp only [List.mem_cons, exists_eq_or_imp, or_assoc]

theorem errno_iff {history : List Input} {p : Process}
    (h : run Process.step history Process.initial = some p) :
    p.errno = ERANGE ↔ OutOfRangeBefore history := by
  rw [run_errno h, OutOfRangeBefore]
  simp [Process.initial, ERANGE]

variable {errno : Nat} {line buf : List UInt8} {v : BitVec 64}

/-- White space in front of a string is gone when it has been trimmed. -/
theorem answer_dropWhile (line : List UInt8) : (answer line).dropWhile isspace = answer line := by
  unfold answer
  generalize line.takeWhile (· ≠ 0) = s
  cases htrim : trimmed s with
  | nil => rfl
  | cons c t =>
    have hne : trimmed s ≠ [] := by simp [htrim]
    have hhead := trimmed_head hne
    simp only [htrim, List.head_cons] at hhead
    rw [List.dropWhile_cons_of_neg (by simp [hhead])]

theorem set_node_uint_eq_some : (set_node_uint errno buf).1 = some v ↔
    buf.head? ≠ some 0x2d ∧
      ¬((strtoul 0 buf).value = ULONG_MAX ∧ ((strtoul 0 buf).erange ∨ errno = ERANGE)) ∧
      (strtoul 0 buf).endptr = [] ∧ v = BitVec.ofNat 64 (strtoul 0 buf).value := by
  have herrno : (if (strtoul 0 buf).erange then ERANGE else errno) = ERANGE ↔
      ((strtoul 0 buf).erange ∨ errno = ERANGE) := by
    cases (strtoul 0 buf).erange <;> simp
  simp only [set_node_uint, herrno]
  split
  · rename_i hrefused
    simp only [reduceCtorEq, false_iff]
    rintro ⟨hhead, hmax, hend, -⟩
    rcases hrefused with h | h | h
    · exact hhead h
    · exact hmax h
    · exact h hend
  · rename_i htaken
    rw [not_or, not_or, ne_eq, not_not] at htaken
    constructor
    · exact fun h => ⟨htaken.1, htaken.2.1, htaken.2.2, (Option.some.inj h).symm⟩
    · exact fun h => congrArg some h.2.2.2.symm

theorem set_node_int_eq_some : (set_node_int errno buf).1 = some v ↔
    ¬((strtol 0 buf).value = LONG_MAX ∧ ((strtol 0 buf).erange ∨ errno = ERANGE)) ∧
      (strtol 0 buf).endptr = [] ∧ v = BitVec.ofInt 64 (strtol 0 buf).value := by
  have herrno : (if (strtol 0 buf).erange then ERANGE else errno) = ERANGE ↔
      ((strtol 0 buf).erange ∨ errno = ERANGE) := by
    cases (strtol 0 buf).erange <;> simp
  simp only [set_node_int, herrno]
  split
  · rename_i hrefused
    simp only [reduceCtorEq, false_iff]
    rintro ⟨hmax, hend, -⟩
    rcases hrefused with h | h
    · exact hmax h
    · exact h hend
  · rename_i htaken
    rw [not_or, ne_eq, not_not] at htaken
    constructor
    · exact fun h => ⟨htaken.1, htaken.2, (Option.some.inj h).symm⟩
    · exact fun h => congrArg some h.2.2.symm

theorem enters_empty (h : answer line = []) : ¬TakesUint errno line ∧ ¬TakesInt errno line := by
  have hnone (neg : Bool) (m : Nat) : ¬Numeral [] neg m := by
    intro h
    cases h with
    | plain h =>
      cases h with
      | decimal hne => exact hne rfl
  constructor
  · intro htakes
    have htaken : (set_node_uint errno (answer line)).1 = some 0 := by
      rw [h]
      rfl
    obtain ⟨m, hm, -⟩ := (htakes 0).mp htaken
    exact hnone _ _ (h ▸ hm)
  · intro htakes
    have htaken : (set_node_int errno (answer line)).1 = some 0 := by
      rw [h]
      rfl
    obtain ⟨neg, m, hm, -⟩ := (htakes 0).mp htaken
    exact hnone _ _ (h ▸ hm)

theorem set_node_uint_numeral {m : Nat} (h : Numeral buf false m) :
    (set_node_uint errno buf).1 = some v ↔
      m ≤ ULONG_MAX ∧ ¬(m = ULONG_MAX ∧ errno = ERANGE) ∧ v = BitVec.ofNat 64 m := by
  have hhead : buf.head? ≠ some 0x2d := fun heq => Bool.false_ne_true (h.head.mpr heq)
  rw [set_node_uint_eq_some, h.strtoul_eq]
  by_cases hrange : ULONG_MAX < m
  · simp [hrange, Nat.not_le.mpr hrange]
  · simp [hrange, Nat.not_lt.mp hrange, hhead]

theorem set_node_int_numeral {neg : Bool} {m : Nat} (h : Numeral buf neg m) :
    (set_node_int errno buf).1 = some v ↔
      (LONG_MIN ≤ signed neg m ∧ signed neg m ≤ LONG_MAX ∧
        ¬(signed neg m = LONG_MAX ∧ errno = ERANGE) ∧ v = BitVec.ofInt 64 (signed neg m)) ∨
      (signed neg m < LONG_MIN ∧ v = BitVec.ofInt 64 LONG_MIN) := by
  rw [set_node_int_eq_some, h.strtol_eq]
  generalize signed neg m = n
  have hbounds : LONG_MIN < LONG_MAX := by decide
  by_cases hhigh : LONG_MAX < n
  · have hlow : ¬n < LONG_MIN := by omega
    simp [hhigh, Int.not_le.mpr hhigh, hlow]
  · by_cases hlow : n < LONG_MIN
    · have hne : LONG_MIN ≠ LONG_MAX := by decide
      simp [hhigh, hlow, Int.not_le.mpr hlow, hne]
    · simp [hhigh, hlow, Int.not_lt.mp hhigh, Int.not_lt.mp hlow]

theorem takesUint_iff : TakesUint errno line ↔ answer line ≠ [] ∧
    ¬(Numeral (answer line) false ULONG_MAX ∧ errno = ERANGE) := by
  by_cases hempty : answer line = []
  · simp [(enters_empty hempty).1, hempty]
  · by_cases hnumeral : ∃ m, Numeral (answer line) false m
    · obtain ⟨m, hm⟩ := hnumeral
      have hunique (m' : Nat) : Numeral (answer line) false m' ↔ m' = m := by
        constructor
        · exact fun h => (h.unique hm).2
        · rintro rfl
          exact hm
      simp only [TakesUint, set_node_uint_numeral hm, hunique, exists_eq_left]
      constructor
      · intro htakes
        refine ⟨hempty, fun ⟨hmax, herrno⟩ => ?_⟩
        exact ((htakes _).mpr ⟨hmax.ge, rfl⟩).2.1 ⟨hmax.symm, herrno⟩
      · rintro ⟨-, hmax⟩ v
        exact ⟨fun h => ⟨h.1, h.2.2⟩, fun h => ⟨h.1, fun ⟨heq, herrno⟩ => hmax ⟨heq.symm, herrno⟩, h.2⟩⟩
    · have hnever (v : BitVec 64) : (set_node_uint errno (answer line)).1 ≠ some v := by
        intro h
        obtain ⟨hhead, -, hend, -⟩ := set_node_uint_eq_some.mp h
        obtain ⟨neg, m, hm⟩ := numeral_of_endptr (answer_dropWhile line) hempty (.inr hend)
        cases neg with
        | true => exact hhead (hm.head.mp rfl)
        | false => exact hnumeral ⟨m, hm⟩
      rw [not_exists] at hnumeral
      simp [TakesUint, hnever, hnumeral, hempty]

theorem takesInt_iff : TakesInt errno line ↔ answer line ≠ [] ∧
    (∀ neg m, Numeral (answer line) neg m → LONG_MIN ≤ signed neg m ∧
      ¬(signed neg m = LONG_MAX ∧ errno = ERANGE)) := by
  by_cases hempty : answer line = []
  · simp [(enters_empty hempty).2, hempty]
  · by_cases hnumeral : ∃ neg m, Numeral (answer line) neg m
    · obtain ⟨neg, m, hm⟩ := hnumeral
      constructor
      · intro htakes
        refine ⟨hempty, fun neg' m' hm' => ?_⟩
        obtain ⟨rfl, rfl⟩ := hm.unique hm'
        have hmin : LONG_MIN ≤ signed neg m := by
          by_contra hlt
          have htaken : (set_node_int errno (answer line)).1 = some (BitVec.ofInt 64 LONG_MIN) :=
            (set_node_int_numeral hm).mpr (.inr ⟨Int.not_le.mp hlt, rfl⟩)
          obtain ⟨neg', m', hm', hge, -⟩ := (htakes _).mp htaken
          obtain ⟨rfl, rfl⟩ := hm.unique hm'
          exact hlt hge
        refine ⟨hmin, fun ⟨hmax, herrno⟩ => ?_⟩
        rcases (set_node_int_numeral hm).mp ((htakes _).mpr ⟨neg, m, hm, hmin, hmax.le, rfl⟩) with h | h
        · exact h.2.2.1 ⟨hmax, herrno⟩
        · exact absurd hmin (Int.not_le.mpr h.1)
      · rintro ⟨-, hfits⟩ v
        obtain ⟨hmin, hmax⟩ := hfits neg m hm
        rw [set_node_int_numeral hm]
        constructor
        · rintro (h | h)
          · exact ⟨neg, m, hm, h.1, h.2.1, h.2.2.2⟩
          · exact absurd hmin (Int.not_le.mpr h.1)
        · rintro ⟨neg', m', hm', hge, hle, hv⟩
          obtain ⟨rfl, rfl⟩ := hm.unique hm'
          exact .inl ⟨hge, hle, hmax, hv⟩
    · have hnever (v : BitVec 64) : (set_node_int errno (answer line)).1 ≠ some v := by
        intro h
        obtain ⟨-, hend, -⟩ := set_node_int_eq_some.mp h
        exact hnumeral (numeral_of_endptr (answer_dropWhile line) hempty (.inl hend))
      simp only [not_exists] at hnumeral
      simp [TakesInt, hnever, hnumeral, hempty]

/-- After any earlier commands, the entries take the numerals in range and nothing else, except for the
empty line, numbers below `-2 ^ 63`, and the last numbers of the ranges after one out of range. -/
theorem number_entry_iff (history : List Input) (p : Process)
    (h : run Process.step history Process.initial = some p) (line : List UInt8) :
    (TakesUint p.errno line ↔ answer line ≠ [] ∧
      ¬(Numeral (answer line) false ULONG_MAX ∧ OutOfRangeBefore history)) ∧
    (TakesInt p.errno line ↔ answer line ≠ [] ∧
      ∀ neg m, Numeral (answer line) neg m → LONG_MIN ≤ signed neg m ∧
        ¬(signed neg m = LONG_MAX ∧ OutOfRangeBefore history)) := by
  rw [takesUint_iff, takesInt_iff, errno_iff h]
  exact ⟨Iff.rfl, Iff.rfl⟩

/-- The numeral 7, after 0x1ffffffffffffffff has been refused. -/
theorem number_entry_iff_seven : ∃ p,
    run Process.step [.add [0x61] .NODE_UINT ⟨ascii "0x1ffffffffffffffff\n", [], 0⟩]
      Process.initial = some p ∧ TakesUint p.errno (ascii "7\n") := by
  obtain ⟨p, hp⟩ := Option.isSome_iff_exists.mp (show (run Process.step
    [.add [0x61] .NODE_UINT ⟨ascii "0x1ffffffffffffffff\n", [], 0⟩] Process.initial).isSome from
    by decide +kernel)
  have hdigits : ∀ c ∈ [(0x37 : UInt8)], isDigit 10 c := by
    intro c hc
    rw [List.mem_singleton.mp hc]
    rfl
  have hseven : Numeral (answer (ascii "7\n")) false 7 :=
    .plain (.decimal (by decide) hdigits (by decide))
  refine ⟨p, hp, (number_entry_iff _ p hp (ascii "7\n")).1.mpr ⟨by decide, fun ⟨hmax, _⟩ => ?_⟩⟩
  exact absurd (hseven.unique hmax).2 (by decide)

/-- A bare newline is stored as zero at the first prompt. -/
theorem bare_newline_is_zero : run Process.step [] Process.initial = some Process.initial ∧
    ¬TakesUint Process.initial.errno (ascii "\n") ∧
    ¬TakesInt Process.initial.errno (ascii "\n") :=
  ⟨rfl, enters_empty (by decide)⟩

end CtfChallenges.Kvaas
