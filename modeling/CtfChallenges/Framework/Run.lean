import Mathlib.Data.List.Basic
import Mathlib.Data.List.FinRange

/-!
# Runs of a program that may get stuck

A program that handles one input after another is a step function with no value where it
panics, blocks or leaves its memory. The rules below are the inductions over a run; a
development supplies the facts about one step.
-/

namespace CtfChallenges.Framework

variable {σ τ ι : Type*}

/-- The state after a list of inputs. -/
def run (step : σ → ι → Option σ) : List ι → σ → Option σ
  | [], s => some s
  | i :: is, s => (step s i).bind (run step is)

@[simp] theorem run_nil (step : σ → ι → Option σ) (s : σ) : run step [] s = some s := rfl

@[simp] theorem run_cons (step : σ → ι → Option σ) (i : ι) (is : List ι) (s : σ) :
    run step (i :: is) s = (step s i).bind (run step is) := rfl

theorem run_append (step : σ → ι → Option σ) (is js : List ι) (s : σ) :
    run step (is ++ js) s = (run step is s).bind (run step js) := by
  induction is generalizing s with
  | nil => rfl
  | cons i is ih => cases h : step s i <;> simp [h, ih]

/-- The next state of a run, from the one before it. -/
theorem run_take_succ (step : σ → ι → Option σ) (is : List ι) (s : σ) (k : Nat)
    (hk : k < is.length) :
    run step (is.take (k + 1)) s = (run step (is.take k) s).bind (step · is[k]) := by
  rw [List.take_succ_eq_append_getElem hk, run_append]
  congr 1
  funext s'
  exact Option.bind_fun_some _

/-- Where every step on a good input keeps the invariant, a run over good inputs keeps it. -/
theorem run_invariant_of_forall {step : σ → ι → Option σ} {Inv : σ → Prop} {P : ι → Prop}
    (hstep : ∀ s i s', P i → Inv s → step s i = some s' → Inv s') {is : List ι}
    (hall : ∀ i ∈ is, P i) {s s' : σ} (h : Inv s) (hrun : run step is s = some s') : Inv s' := by
  induction is generalizing s with
  | nil => exact Option.some.inj hrun ▸ h
  | cons i is ih =>
    rw [List.forall_mem_cons] at hall
    obtain ⟨t, ht, hrest⟩ := Option.bind_eq_some_iff.mp hrun
    exact ih hall.2 (hstep s i t hall.1 h ht) hrest

/-- Where every step keeps the invariant, every state of a run has it. -/
theorem run_invariant {step : σ → ι → Option σ} {Inv : σ → Prop}
    (hstep : ∀ s i s', Inv s → step s i = some s' → Inv s') (is : List ι) {s s' : σ}
    (h : Inv s) (hrun : run step is s = some s') : Inv s' :=
  run_invariant_of_forall (fun s i s' (_ : True) => hstep s i s') (fun _ _ => trivial) h hrun

/-- Where every step also has a result, no run gets stuck. -/
theorem run_total {step : σ → ι → Option σ} {Inv : σ → Prop}
    (hstep : ∀ s i, Inv s → ∃ s', step s i = some s' ∧ Inv s') (is : List ι) {s : σ}
    (h : Inv s) : ∃ s', run step is s = some s' ∧ Inv s' := by
  induction is generalizing s with
  | nil => exact ⟨s, rfl, h⟩
  | cons i is ih =>
    obtain ⟨t, ht, hinv⟩ := hstep s i h
    obtain ⟨u, hu, hinv'⟩ := ih hinv
    exact ⟨u, by simp [ht, hu], hinv'⟩

/-- The steps that a run takes, each with the state before it. The last may have no next state. -/
def visited (next : σ → ι → Option σ) : List ι → σ → List (σ × ι)
  | [], _ => []
  | i :: is, s => (s, i) :: (next s i).elim [] (visited next is)

theorem fst_of_mem_head?_visited {next : σ → ι → Option σ} {is : List ι} {s : σ} {p : σ × ι}
    (h : p ∈ (visited next is s).head?) : p.1 = s := by
  cases is with
  | nil => cases h
  | cons i is =>
    cases h
    rfl

/-- A step that a run takes comes after the run of the inputs before it. -/
theorem exists_prefix_of_mem_visited {next : σ → ι → Option σ} {is : List ι} {s : σ} {p : σ × ι}
    (h : p ∈ visited next is s) : ∃ js, js ++ [p.2] <+: is ∧ run next js s = some p.1 := by
  induction is generalizing s with
  | nil => cases h
  | cons i is ih =>
    cases h with
    | head => exact ⟨[], by simp, rfl⟩
    | tail _ h =>
      cases hnext : next s i with
      | none =>
        rw [hnext] at h
        cases h
      | some s' =>
        rw [hnext] at h
        obtain ⟨js, hjs, hrun⟩ := ih h
        exact ⟨i :: js, List.cons_prefix_cons.mpr ⟨rfl, hjs⟩, by simp [hnext, hrun]⟩

/-- Where every step keeps the invariant, a run only takes steps from states that have it. -/
theorem visited_invariant {next : σ → ι → Option σ} {Inv : σ → Prop}
    (hstep : ∀ s i s', Inv s → next s i = some s' → Inv s') (is : List ι) {s : σ} (h : Inv s) :
    ∀ p ∈ visited next is s, Inv p.1 := by
  induction is generalizing s with
  | nil =>
    intro p hp
    cases hp
  | cons i is ih =>
    intro p hp
    cases hp with
    | head => exact h
    | tail _ hp =>
      cases hnext : next s i with
      | none =>
        rw [hnext] at hp
        cases hp
      | some s' =>
        rw [hnext] at hp
        exact ih (hstep s i s' h hnext) p hp

/-- Where the steps that a run takes keep the invariant, so do the runs of its first inputs. -/
theorem run_invariant_of_visited {next : σ → ι → Option σ} {Inv : σ → Prop} {P : σ → ι → Prop}
    (hstep : ∀ s i s', P s i → Inv s → next s i = some s' → Inv s') {is js : List ι} {s s' : σ}
    (h : Inv s) (hall : ∀ p ∈ visited next is s, P p.1 p.2) (hjs : js <+: is)
    (hrun : run next js s = some s') : Inv s' := by
  induction js generalizing is s with
  | nil =>
    cases hrun
    exact h
  | cons j js ih =>
    obtain ⟨rest, rfl⟩ := hjs
    obtain ⟨t, ht, hrest⟩ := Option.bind_eq_some_iff.mp hrun
    rw [List.cons_append, visited, List.forall_mem_cons, ht, Option.elim_some] at hall
    exact ih (hstep s j t hall.1 h ht) hall.2 (List.prefix_append js rest) hrest

variable {ο υ α β α' β' : Type*}

theorem rel_bind {P : α → α' → Prop} {Q : β → β' → Prop} {a : Option α} {a' : Option α'}
    {f : α → Option β} {g : α' → Option β'} (h : Option.Rel P a a')
    (hfg : ∀ x y, P x y → Option.Rel Q (f x) (g y)) : Option.Rel Q (a.bind f) (a'.bind g) := by
  cases h with
  | none => exact .none
  | some hxy => exact hfg _ _ hxy

/-- What a relation says of a value that it relates to itself. -/
theorem rel_self {P : α → α → Prop} {a : Option α} {v : α} (h : Option.Rel P a a)
    (hv : a = some v) : P v v := by
  rw [hv] at h
  cases h with
  | some hvv => exact hvv

/-- Steps that keep a relation lead two runs to states in that relation. -/
theorem run_rel {P : σ → τ → Prop} {f : σ → ι → Option σ} {g : τ → ι → Option τ}
    (h : ∀ s t i, P s t → Option.Rel P (f s i) (g t i)) (is : List ι) {s : σ} {t : τ}
    (hst : P s t) : Option.Rel P (run f is s) (run g is t) := by
  induction is generalizing s t with
  | nil => exact .some hst
  | cons i is ih => exact rel_bind (h s t i hst) fun _ _ => ih

theorem visited_rel {P : σ → τ → Prop} {f : σ → ι → Option σ} {g : τ → ι → Option τ}
    (h : ∀ s t i, P s t → Option.Rel P (f s i) (g t i)) {is : List ι} {s : σ} {t : τ}
    (hst : P s t) {p : σ × ι} (hp : p ∈ visited f is s) :
    ∃ u, (u, p.2) ∈ visited g is t ∧ P p.1 u := by
  induction is generalizing s t with
  | nil => cases hp
  | cons i is ih =>
    cases hp with
    | head => exact ⟨t, List.mem_cons_self, hst⟩
    | tail _ hp =>
      have hrel := h s t i hst
      cases hs : f s i with
      | none =>
        rw [hs] at hp
        cases hp
      | some s' =>
        rw [hs] at hp hrel
        cases ht : g t i with
        | none =>
          rw [ht] at hrel
          cases hrel
        | some t' =>
          rw [ht] at hrel
          cases hrel with
          | some hst' =>
            obtain ⟨u, hu, hpu⟩ := ih hst' hp
            exact ⟨u, List.mem_cons_of_mem _ (by rw [ht]; exact hu), hpu⟩

theorem rel_foldlM {P : σ → τ → Prop} {f : σ → ι → Option σ} {g : τ → ι → Option τ}
    (h : ∀ s t i, P s t → Option.Rel P (f s i) (g t i)) (is : List ι) {s : σ} {t : τ}
    (hst : P s t) : Option.Rel P (is.foldlM f s) (is.foldlM g t) := by
  induction is generalizing s t with
  | nil => exact .some hst
  | cons i is ih =>
    simp only [List.foldlM_cons, Option.bind_eq_bind]
    exact rel_bind (h s t i hst) fun _ _ => ih

/-- What an observer sees of a run: the output of each step and a view of the state after it.
The run ends with a final output, or where a step has no value. -/
def trace (step : σ → ι → Option (ο × σ)) (final : ο → Bool) (view : σ → υ) :
    List ι → σ → List (ο × υ)
  | [], _ => []
  | i :: is, s =>
    match step s i with
    | none => []
    | some (o, s') => (o, view s') :: if final o then [] else trace step final view is s'

/-- Two states look the same for ever when they are in a relation that every pair of steps on
one input keeps, with equal outputs and views. -/
theorem trace_eq_of_lockstep {step : σ → ι → Option (ο × σ)} {final : ο → Bool} {view : σ → υ}
    {R : σ → σ → Prop} (hview : ∀ s t, R s t → view s = view t)
    (hstep : ∀ s t i, R s t → Option.Rel (fun p q => p.1 = q.1 ∧ R p.2 q.2) (step s i) (step t i))
    (is : List ι) {s t : σ} (h : R s t) :
    trace step final view is s = trace step final view is t := by
  induction is generalizing s t with
  | nil => rfl
  | cons i is ih =>
    have hrel := hstep s t i h
    simp only [trace]
    generalize step s i = a at hrel ⊢
    generalize step t i = b at hrel ⊢
    cases hrel with
    | none => rfl
    | @some p q hpq =>
      obtain ⟨o, s'⟩ := p
      obtain ⟨o', t'⟩ := q
      obtain ⟨ho, hst⟩ := hpq
      simp only at ho hst ⊢
      rw [← ho, hview s' t' hst, ih hst]

/-- A loop whose pass for an index establishes the fact of that index and keeps the facts of all
others establishes the facts of all its indices. -/
theorem foldlM_establishes {f : σ → ι → Option σ} {P : ι → σ → Prop} {Q : ι → Prop}
    (hstep : ∀ s i, Q i → ∃ s', f s i = some s' ∧ P i s' ∧ ∀ j, P j s → P j s')
    (is : List ι) (hall : ∀ i ∈ is, Q i) (s : σ) :
    ∃ s', is.foldlM f s = some s' ∧ (∀ i ∈ is, P i s') ∧ ∀ j, P j s → P j s' := by
  induction is generalizing s with
  | nil => exact ⟨s, rfl, by simp, fun _ h => h⟩
  | cons i is ih =>
    rw [List.forall_mem_cons] at hall
    obtain ⟨t, ht, hi, hkeep⟩ := hstep s i hall.1
    obtain ⟨u, hu, hrest, hkeep'⟩ := ih hall.2 t
    refine ⟨u, by simp [List.foldlM_cons, ht, hu], ?_, fun j h => hkeep' j (hkeep j h)⟩
    rw [List.forall_mem_cons]
    exact ⟨hkeep' i hi, hrest⟩

/-- A loop has a value when every pass has one. -/
theorem foldlM_isSome {f : σ → ι → Option σ} {is : List ι} (h : ∀ i ∈ is, ∀ s, (f s i).isSome) (s : σ) :
    (is.foldlM f s).isSome := by
  induction is generalizing s with
  | nil => rfl
  | cons i is ih =>
    rw [List.forall_mem_cons] at h
    obtain ⟨t, ht⟩ := Option.isSome_iff_exists.mp (h.1 s)
    rw [List.foldlM_cons, ht]
    exact ih h.2 t

/-- A loop that comes to a pass without a value has none. -/
theorem foldlM_eq_none {f : σ → ι → Option σ} {is : List ι} {i : ι} (hi : i ∈ is)
    (h : ∀ s, f s i = none) (s : σ) : is.foldlM f s = none := by
  induction is generalizing s with
  | nil => cases hi
  | cons j is ih =>
    rw [List.foldlM_cons, Option.bind_eq_bind]
    obtain rfl | hi := List.mem_cons.mp hi
    · rw [h, Option.bind_none]
    · rw [Option.bind_eq_none_iff]
      intro t _
      exact ih hi t

/-- A loop that collects results of its passes returns them all when no pass fails. -/
theorem mapM_ok {ε : Type*} {f : α → Except ε β} {xs : List α} {ys : List β}
    (h : List.Forall₂ (fun x y => f x = .ok y) xs ys) : xs.mapM f = .ok ys := by
  induction h with
  | nil => rfl
  | cons hxy _ ih =>
    rw [List.mapM_cons, hxy, ih]
    rfl

theorem mapM_some {f : α → Option β} {g : α → β} {xs : List α} (h : ∀ x ∈ xs, f x = some (g x)) :
    xs.mapM f = some (xs.map g) := by
  induction xs with
  | nil => rfl
  | cons x xs ih =>
    rw [List.forall_mem_cons] at h
    rw [List.mapM_cons, h.1, ih h.2]
    rfl

theorem mapM_isSome {f : α → Option β} {xs : List α} (h : ∀ x ∈ xs, ∃ y, f x = some y) :
    ∃ ys, xs.mapM f = some ys := by
  induction xs with
  | nil => exact ⟨[], rfl⟩
  | cons x xs ih =>
    rw [List.forall_mem_cons] at h
    obtain ⟨y, hy⟩ := h.1
    obtain ⟨ys, hys⟩ := ih h.2
    refine ⟨y :: ys, ?_⟩
    rw [List.mapM_cons, hy, hys]
    rfl

theorem exists_forall₂ {R : α → β → Prop} {xs : List α} (h : ∀ x ∈ xs, ∃ y, R x y) :
    ∃ ys, List.Forall₂ R xs ys := by
  induction xs with
  | nil => exact ⟨[], .nil⟩
  | cons x xs ih =>
    rw [List.forall_mem_cons] at h
    obtain ⟨y, hy⟩ := h.1
    obtain ⟨ys, hys⟩ := ih h.2
    exact ⟨y :: ys, .cons hy hys⟩

/-- What each pass of a loop hands to the next holds after all passes. -/
theorem foldl_finRange {n : Nat} {pass : σ → Fin n → σ} (Inv : Nat → σ → Prop)
    (hpass : ∀ (i : Fin n) s, Inv i s → Inv (i + 1) (pass s i)) {s : σ} (h : Inv 0 s) :
    Inv n ((List.finRange n).foldl pass s) := by
  have hprefix : ∀ k ≤ n, Inv k (((List.finRange n).take k).foldl pass s) := by
    intro k
    induction k with
    | zero => exact fun _ => h
    | succ k ih =>
      intro hk
      have hlen : k < (List.finRange n).length := by rwa [List.length_finRange]
      rw [List.take_succ_eq_append_getElem hlen, List.foldl_append]
      simpa using hpass ⟨k, hk⟩ _ (ih (Nat.le_of_lt hk))
  have hall := hprefix n le_rfl
  rwa [List.take_of_length_le (by simp)] at hall

end CtfChallenges.Framework
