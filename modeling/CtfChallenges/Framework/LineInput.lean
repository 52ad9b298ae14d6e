import CtfChallenges.Framework.Stdio

/-!
# Programs that ask for lines

A program that reads its input with one `fgets` after another, each into the buffer of its prompt. Its
calls are compared with those of a program that gets one whole line at each prompt.
-/

namespace CtfChallenges.Framework.LineInput
open Stdio

structure Line where
  text : List UInt8
  no_newline : newline ∉ text

def Line.bytes (line : Line) : List UInt8 := line.text ++ [newline]

/-- The input that consists of the lines. -/
def stdin (lines : List Line) : List UInt8 := lines.flatMap Line.bytes

/-- What a program asks for in a state, if it has not ended, and how it goes on with what it reads. -/
structure Program (σ π : Type*) where
  prompt : σ → Option π
  size : π → Nat
  resume : σ → List UInt8 → Option σ

/-- A call of `fgets`: what it reads and what it leaves. -/
structure Call (π : Type*) where
  prompt : π
  bytes : List UInt8
  rest : List UInt8
deriving DecidableEq

/-- A prompt with its line and the lines after it. -/
structure Asked (π : Type*) where
  prompt : π
  line : Line
  after : List Line

/-- The call that takes the line as a whole. -/
def Asked.call {π : Type*} (a : Asked π) : Call π := ⟨a.prompt, a.line.bytes, stdin a.after⟩

namespace Program

variable {σ π : Type*} (prog : Program σ π)

/-- The calls until the program or its input ends. -/
def calls : Nat → σ → List UInt8 → List (Call π)
  | 0, _, _ => []
  | fuel + 1, s, input =>
    match prog.prompt s with
    | none => []
    | some p =>
      match fgets (prog.size p) input with
      | none => []
      | some (bytes, rest) =>
        ⟨p, bytes, rest⟩ :: (prog.resume s bytes).elim [] fun s' => calls fuel s' rest

/-- The prompts when each gets one line. -/
def asked : σ → List Line → List (Asked π)
  | _, [] => []
  | s, line :: lines =>
    match prog.prompt s with
    | none => []
    | some p => ⟨p, line, lines⟩ :: (prog.resume s line.bytes).elim [] fun s' => asked s' lines

/-- Every call reads the line of its prompt and leaves the lines after it. -/
def Aligned (s : σ) (lines : List Line) : Prop :=
  prog.calls (stdin lines).length s (stdin lines) = (prog.asked s lines).map Asked.call

/-- The line and its newline have room in the buffer of its prompt. -/
def Fits (a : Asked π) : Prop := a.line.bytes.length < prog.size a.prompt

variable {prog} {s : σ} {line : Line} {lines : List Line} {p : π}

theorem stdin_cons (line : Line) (lines : List Line) :
    stdin (line :: lines) = line.text ++ newline :: stdin lines := by
  simp [stdin, Line.bytes]

theorem length_stdin_cons (line : Line) (lines : List Line) :
    (stdin (line :: lines)).length = line.text.length + 1 + (stdin lines).length := by
  rw [stdin_cons, List.length_append, List.length_cons, Nat.add_assoc, Nat.add_comm 1]

/-- A buffer without room for the line and its newline does not get them. -/
theorem fgets_ne_line {size : Nat} {input bytes rest : List UInt8} (hsize : 0 < size)
    (hlong : size ≤ line.bytes.length) (h : fgets size input = some (bytes, rest)) :
    bytes ≠ line.bytes := by
  have hlen := fgets_length_le h
  intro heq
  rw [heq] at hlen
  omega

/-- The first line decides the first call, and the others what comes after it. -/
theorem calls_cons (hprompt : prog.prompt s = some p) (hfits : prog.Fits ⟨p, line, lines⟩)
    (fuel : Nat) : prog.calls (fuel + 1) s (stdin (line :: lines)) =
      ⟨p, line.bytes, stdin lines⟩ ::
        (prog.resume s line.bytes).elim [] fun s' => prog.calls fuel s' (stdin lines) := by
  have hroom : line.text.length + 1 < prog.size p := by
    simpa [Fits, Line.bytes] using hfits
  simp only [calls, hprompt, stdin_cons, fgets_line line.no_newline hroom]
  rfl

/-- The calls are aligned as long as the lines fit. -/
theorem calls_eq_iff (hsize : ∀ p, 0 < prog.size p) (lines : List Line) (s : σ) {fuel : Nat}
    (hfuel : (stdin lines).length ≤ fuel) :
    prog.calls fuel s (stdin lines) = (prog.asked s lines).map Asked.call ↔
      ∀ a ∈ prog.asked s lines, prog.Fits a := by
  induction lines generalizing s fuel with
  | nil =>
    have hnil : prog.calls fuel s (stdin []) = [] := by
      cases fuel with
      | zero => rfl
      | succ fuel => cases hprompt : prog.prompt s <;> simp [calls, hprompt, stdin]
    simp [hnil, asked]
  | cons line lines ih =>
    rw [length_stdin_cons] at hfuel
    obtain ⟨fuel, rfl⟩ : ∃ k, fuel = k + 1 := Nat.exists_eq_add_one.mpr (by omega)
    have hrest : (stdin lines).length ≤ fuel := by omega
    cases hprompt : prog.prompt s with
    | none => simp [calls, asked, hprompt]
    | some p =>
      simp only [asked, hprompt, List.map_cons, List.forall_mem_cons]
      by_cases hfits : prog.Fits ⟨p, line, lines⟩
      · rw [calls_cons hprompt hfits]
        cases hresume : prog.resume s line.bytes with
        | none => simp [hfits, Asked.call]
        | some s' => simp [hfits, Asked.call, ih s' hrest]
      · simp only [hfits, false_and, iff_false]
        intro heq
        have hlong : prog.size p ≤ line.bytes.length := Nat.le_of_not_lt hfits
        simp only [calls, hprompt] at heq
        cases hread : fgets (prog.size p) (stdin (line :: lines)) with
        | none =>
          rw [hread] at heq
          cases heq
        | some r =>
          rw [hread] at heq
          have hbytes := congrArg Call.bytes (List.head_eq_of_cons_eq heq)
          exact fgets_ne_line (hsize p) hlong hread hbytes

/-- The calls of a program stay aligned with the lines exactly when each line fits the prompt that it
is for. -/
theorem aligned_iff (hsize : ∀ p, 0 < prog.size p) (s : σ) (lines : List Line) :
    prog.Aligned s lines ↔ ∀ a ∈ prog.asked s lines, prog.Fits a :=
  calls_eq_iff hsize lines s (Nat.le_refl _)

end Program

end CtfChallenges.Framework.LineInput
