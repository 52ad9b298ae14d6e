import Mathlib.Data.List.Nodup
import Mathlib.Data.List.Perm.Subperm

/-!
# Blocks of memory and linked lists

A heap of blocks of one kind. No address is given out twice, and a block that has been freed keeps
what was in it, so that a later use of it can be told from a use of another block. Over it, lists
that are linked from block to block.
-/

namespace CtfChallenges.Framework.Memory

variable {α : Type}

/-- A block, and how often it has been freed. -/
structure Block (α : Type) where
  value : α
  frees : Nat
deriving DecidableEq, Repr

structure Heap (α : Type) where
  blocks : List (Block α)
deriving DecidableEq, Repr

namespace Heap

def empty : Heap α := ⟨[]⟩

/-- The address of the next block. -/
def next (h : Heap α) : Nat := h.blocks.length

def malloc (h : Heap α) (v : α) : Heap α := ⟨h.blocks ++ [⟨v, 0⟩]⟩

def free (h : Heap α) (a : Nat) : Heap α :=
  ⟨h.blocks.modify a fun b => { b with frees := b.frees + 1 }⟩

def update (h : Heap α) (a : Nat) (f : α → α) : Heap α :=
  ⟨h.blocks.modify a fun b => { b with value := f b.value }⟩

def load (h : Heap α) (a : Nat) : Option α := h.blocks[a]?.map Block.value

/-- The block is allocated and holds the value. -/
def Live (h : Heap α) (a : Nat) (v : α) : Prop := h.blocks[a]? = some ⟨v, 0⟩

/-- What a block holds while it is live. -/
def peek (h : Heap α) (a : Nat) : Option α :=
  h.blocks[a]?.bind fun b => if b.frees = 0 then some b.value else none

/-- No block has been freed twice. -/
def FreedOnce (h : Heap α) : Prop := ∀ b ∈ h.blocks, b.frees ≤ 1

theorem Live.load {h : Heap α} {a : Nat} {v : α} (hv : h.Live a v) : h.load a = some v := by
  rw [Heap.load, hv]
  rfl

theorem Live.lt {h : Heap α} {a : Nat} {v : α} (hv : h.Live a v) : a < h.next :=
  (List.getElem?_eq_some_iff.mp hv).1

theorem Live.peek {h : Heap α} {a : Nat} {v : α} (hv : h.Live a v) : h.peek a = some v := by
  rw [Heap.peek, hv]
  rfl

theorem Live.unique {h : Heap α} {a : Nat} {v w : α} (hv : h.Live a v) (hw : h.Live a w) :
    v = w :=
  Option.some.inj (hv.load.symm.trans hw.load)

theorem live_malloc (h : Heap α) (v : α) (a : Nat) (w : α) :
    (h.malloc v).Live a w ↔ h.Live a w ∨ a = h.next ∧ w = v := by
  simp only [Live, malloc, next, List.getElem?_append]
  split
  · rename_i hlt
    simp [Nat.ne_of_lt hlt]
  · rename_i hge
    rw [List.getElem?_eq_none (Nat.le_of_not_lt hge), List.getElem?_singleton]
    split
    · rename_i hsub
      have : a = h.blocks.length := by omega
      simp [this, eq_comm]
    · rename_i hsub
      have : a ≠ h.blocks.length := by omega
      simp [this]

theorem live_free (h : Heap α) (a b : Nat) (w : α) :
    (h.free a).Live b w ↔ b ≠ a ∧ h.Live b w := by
  simp only [Live, free, List.getElem?_modify]
  by_cases hab : a = b
  · subst hab
    cases h.blocks[a]? <;> simp
  · simp [hab, Ne.symm hab]

theorem live_update (h : Heap α) (a b : Nat) (f : α → α) (w : α) :
    (h.update a f).Live b w ↔ ∃ v, h.Live b v ∧ w = if b = a then f v else v := by
  simp only [Live, update, List.getElem?_modify]
  by_cases hab : a = b
  · subst hab
    cases hv : h.blocks[a]? with
    | none => simp
    | some block =>
      obtain ⟨v, frees⟩ := block
      simp only [if_true, Option.map_eq_map, Option.map_some, Option.some.injEq, Block.mk.injEq]
      constructor
      · rintro ⟨rfl, rfl⟩
        exact ⟨v, ⟨rfl, rfl⟩, rfl⟩
      · rintro ⟨_, ⟨rfl, rfl⟩, rfl⟩
        exact ⟨rfl, rfl⟩
  · simp [hab, Ne.symm hab]

/-- Writing into the block that has just been allocated. -/
@[simp] theorem update_malloc (h : Heap α) (v : α) (f : α → α) :
    (h.malloc v).update h.next f = h.malloc (f v) := by
  rw [update, malloc, next, List.modify_eq_take_cons_drop (by simp)]
  simp [malloc]

@[simp] theorem next_malloc (h : Heap α) (v : α) : (h.malloc v).next = h.next + 1 := by
  simp [malloc, next]

@[simp] theorem next_update (h : Heap α) (a : Nat) (f : α → α) : (h.update a f).next = h.next := by
  simp [update, next]

@[simp] theorem next_free (h : Heap α) (a : Nat) : (h.free a).next = h.next := by
  simp [free, next]

theorem update_update (h : Heap α) (a : Nat) (f g : α → α) :
    (h.update a f).update a g = h.update a fun v => g (f v) := by
  simp only [update, Heap.mk.injEq]
  apply List.ext_getElem?
  intro i
  simp only [List.getElem?_modify]
  by_cases hi : a = i <;> simp [hi, Function.comp_def]

theorem update_eq_self {h : Heap α} {a : Nat} {f : α → α} (hf : ∀ v, h.load a = some v → f v = v) :
    h.update a f = h := by
  obtain ⟨blocks⟩ := h
  simp only [update, Heap.mk.injEq]
  apply List.ext_getElem?
  intro i
  rw [List.getElem?_modify]
  by_cases hi : a = i
  · subst hi
    cases hb : blocks[a]? with
    | none => rfl
    | some b =>
      have hvalue : f b.value = b.value := hf b.value (by simp [load, hb])
      simp [hvalue]
  · simp [hi]

theorem load_update (h : Heap α) (a : Nat) (f : α → α) :
    (h.update a f).load a = (h.load a).map f := by
  simp only [load, update, List.getElem?_modify, if_true, Option.map_eq_map, Option.map_map]
  rfl

theorem Live.malloc {h : Heap α} {a : Nat} {v : α} (hv : h.Live a v) (w : α) :
    (h.malloc w).Live a v :=
  (live_malloc h w a v).mpr (.inl hv)

theorem live_malloc_next (h : Heap α) (v : α) : (h.malloc v).Live h.next v :=
  (live_malloc h v h.next v).mpr (.inr ⟨rfl, rfl⟩)

theorem Live.update_of_ne {h : Heap α} {a b : Nat} {v : α} (hv : h.Live b v) (hne : b ≠ a)
    (f : α → α) : (h.update a f).Live b v :=
  (live_update h a b f v).mpr ⟨v, hv, by rw [if_neg hne]⟩

theorem Live.update_self {h : Heap α} {a : Nat} {v : α} (hv : h.Live a v) (f : α → α) :
    (h.update a f).Live a (f v) :=
  (live_update h a a f (f v)).mpr ⟨v, hv, by rw [if_pos rfl]⟩

theorem freedOnce_empty : (empty : Heap α).FreedOnce := by
  intro b hb
  cases hb

theorem FreedOnce.malloc {h : Heap α} (hf : h.FreedOnce) (v : α) : (h.malloc v).FreedOnce := by
  intro b hb
  rw [Heap.malloc, List.mem_append, List.mem_singleton] at hb
  obtain hb | rfl := hb
  · exact hf b hb
  · exact Nat.zero_le 1

theorem FreedOnce.update {h : Heap α} (hf : h.FreedOnce) (a : Nat) (f : α → α) :
    (h.update a f).FreedOnce := by
  intro b hb
  obtain ⟨k, hk⟩ := List.mem_iff_getElem?.mp hb
  rw [Heap.update, List.getElem?_modify, Option.map_eq_map, Option.map_eq_some_iff] at hk
  obtain ⟨b', hb', rfl⟩ := hk
  have hle := hf b' (List.mem_of_getElem? hb')
  split <;> exact hle

/-- A block that is freed while it is live is freed for the first time. -/
theorem FreedOnce.free {h : Heap α} (hf : h.FreedOnce) {a : Nat} {v : α} (hv : h.Live a v) :
    (h.free a).FreedOnce := by
  intro b hb
  obtain ⟨k, hk⟩ := List.mem_iff_getElem?.mp hb
  rw [Heap.free, List.getElem?_modify, Option.map_eq_map, Option.map_eq_some_iff] at hk
  obtain ⟨b', hb', rfl⟩ := hk
  split
  · rename_i hak
    rw [← hak, hv] at hb'
    cases hb'
    exact Nat.le_refl 1
  · exact hf b' (List.mem_of_getElem? hb')

end Heap

variable (link : α → Option Nat)

/-- From `p` on, the blocks are linked in the order of the cells, and the last link is null. -/
def Linked (h : Heap α) : Option Nat → List (Nat × α) → Prop
  | p, [] => p = none
  | p, c :: cells => p = some c.1 ∧ h.Live c.1 c.2 ∧ Linked h (link c.2) cells

/-- `while (p) { if (stop(p)) break; p = p->next; }`, with no value when it runs out of fuel or
follows a link out of the heap. -/
def walk (h : Heap α) (stop : α → Bool) : Nat → Option Nat → Option (Option Nat)
  | 0, _ => none
  | _ + 1, none => some none
  | fuel + 1, some p => do
    let v ← h.load p
    if stop v then some (some p) else walk h stop fuel (link v)

variable {link}

/-- The loop ends at the first cell that stops it. -/
theorem walk_spec {h : Heap α} (stop : α → Bool) {cells : List (Nat × α)} {p : Option Nat}
    (hl : Linked link h p cells) {fuel : Nat} (hfuel : cells.length < fuel) :
    walk link h stop fuel p = some ((cells.find? fun c => stop c.2).map Prod.fst) := by
  induction cells generalizing p fuel with
  | nil =>
    cases fuel with
    | zero => cases hfuel
    | succ fuel =>
      rw [Linked] at hl
      subst hl
      rfl
  | cons c cells ih =>
    cases fuel with
    | zero => cases hfuel
    | succ fuel =>
      obtain ⟨rfl, hlive, hrest⟩ := hl
      simp only [walk, hlive.load, Option.bind_eq_bind, Option.bind_some, List.find?_cons]
      cases hstop : stop c.2 with
      | true => rfl
      | false =>
        simp only [Bool.false_eq_true, if_false]
        exact ih hrest (Nat.lt_of_succ_lt_succ hfuel)

/-- The blocks of a list in their order, as a loop over it meets them. -/
def collect (link : α → Option Nat) (h : Heap α) : Nat → Option Nat → Option (List α)
  | 0, _ => none
  | _ + 1, none => some []
  | fuel + 1, some p => do
    let v ← h.load p
    let rest ← collect link h fuel (link v)
    return v :: rest

theorem collect_spec {h : Heap α} {cells : List (Nat × α)} {p : Option Nat}
    (hl : Linked link h p cells) {fuel : Nat} (hfuel : cells.length < fuel) :
    collect link h fuel p = some (cells.map Prod.snd) := by
  induction cells generalizing p fuel with
  | nil =>
    cases fuel with
    | zero => cases hfuel
    | succ fuel =>
      rw [Linked] at hl
      subst hl
      rfl
  | cons c cells ih =>
    cases fuel with
    | zero => cases hfuel
    | succ fuel =>
      obtain ⟨rfl, hlive, hrest⟩ := hl
      simp [collect, hlive.load, ih hrest (Nat.lt_of_succ_lt_succ hfuel)]

/-- A list whose cells are live in another heap is a list there. -/
theorem Linked.frame {h h' : Heap α} {cells : List (Nat × α)} {p : Option Nat}
    (hl : Linked link h p cells) (hsame : ∀ c ∈ cells, h.Live c.1 c.2 → h'.Live c.1 c.2) :
    Linked link h' p cells := by
  induction cells generalizing p with
  | nil => exact hl
  | cons c cells ih =>
    rw [List.forall_mem_cons] at hsame
    obtain ⟨hp, hlive, hrest⟩ := hl
    exact ⟨hp, hsame.1 hlive, ih hrest hsame.2⟩

theorem Linked.live {h : Heap α} {cells : List (Nat × α)} {p : Option Nat}
    (hl : Linked link h p cells) : ∀ c ∈ cells, h.Live c.1 c.2 := by
  induction cells generalizing p with
  | nil =>
    intro c hc
    cases hc
  | cons c cells ih =>
    rw [List.forall_mem_cons]
    exact ⟨hl.2.1, ih hl.2.2⟩

/-- The cells after the value at an address has been replaced. -/
def replaced (cells : List (Nat × α)) (a : Nat) (f : α → α) : List (Nat × α) :=
  cells.map fun c => (c.1, if c.1 = a then f c.2 else c.2)

theorem Linked.update {h : Heap α} {cells : List (Nat × α)} {p : Option Nat}
    (hl : Linked link h p cells) (a : Nat) {f : α → α} (hf : ∀ v, link (f v) = link v) :
    Linked link (h.update a f) p (replaced cells a f) := by
  induction cells generalizing p with
  | nil => exact hl
  | cons c cells ih =>
    obtain ⟨hp, hlive, hrest⟩ := hl
    refine ⟨hp, (Heap.live_update h a c.1 f _).mpr ⟨c.2, hlive, rfl⟩, ?_⟩
    have hlink : link (if c.1 = a then f c.2 else c.2) = link c.2 := by
      split
      · exact hf c.2
      · rfl
    rw [hlink]
    exact ih hrest

theorem Linked.length_le {h : Heap α} {cells : List (Nat × α)} {p : Option Nat}
    (hl : Linked link h p cells) (hnodup : (cells.map Prod.fst).Nodup) :
    cells.length ≤ h.next := by
  have hsub : cells.map Prod.fst ⊆ List.range h.next := by
    intro a ha
    obtain ⟨c, hc, rfl⟩ := List.mem_map.mp ha
    exact List.mem_range.mpr (hl.live c hc).lt
  have hle := (hnodup.subperm hsub).length_le
  rwa [List.length_map, List.length_range] at hle

/-- The only cell that links to another is the one before it. -/
theorem Linked.find_before {h : Heap α} {front back : List (Nat × α)} {c d : Nat × α}
    {p : Option Nat} (hl : Linked link h p (front ++ c :: d :: back))
    (hnodup : ((front ++ c :: d :: back).map Prod.fst).Nodup) :
    (front ++ c :: d :: back).find? (fun e => link e.2 == some d.1) = some c := by
  induction front generalizing p with
  | nil =>
    have hlink : link c.2 = some d.1 := hl.2.2.1
    simp [hlink]
  | cons e front ih =>
    rw [List.cons_append, List.map_cons, List.nodup_cons] at hnodup
    have hne : link e.2 ≠ some d.1 := by
      intro heq
      cases front with
      | nil =>
        have hlink : link e.2 = some c.1 := hl.2.2.1
        have hcd : c.1 = d.1 := Option.some.inj (hlink.symm.trans heq)
        have := hnodup.2
        simp [hcd] at this
      | cons e' front =>
        have hlink : link e.2 = some e'.1 := hl.2.2.1
        have hed : e'.1 = d.1 := Option.some.inj (hlink.symm.trans heq)
        have := hnodup.2
        simp [hed] at this
    rw [List.cons_append, List.find?_cons_of_neg (by simpa using hne)]
    exact ih hl.2.2 hnodup.2

/-- Linking a cell past the next one takes that out of the list. -/
theorem Linked.unlink {h : Heap α} {front back : List (Nat × α)} {c d : Nat × α} {p : Option Nat}
    (hl : Linked link h p (front ++ c :: d :: back))
    (hnodup : ((front ++ c :: d :: back).map Prod.fst).Nodup) {f : α → α}
    (hf : link (f c.2) = link d.2) :
    Linked link (h.update c.1 f) p (front ++ (c.1, f c.2) :: back) := by
  induction front generalizing p with
  | nil =>
    obtain ⟨hp, hlive, -, -, hrest⟩ := hl
    refine ⟨hp, (Heap.live_update h c.1 c.1 f _).mpr ⟨c.2, hlive, by rw [if_pos rfl]⟩, ?_⟩
    simp only
    rw [hf]
    apply hrest.frame
    intro e he helive
    refine (Heap.live_update h c.1 e.1 f _).mpr ⟨e.2, helive, ?_⟩
    have hne : e.1 ≠ c.1 := by
      intro heq
      simp only [List.nil_append, List.map_cons, List.nodup_cons, List.mem_cons, List.mem_map,
        not_or] at hnodup
      exact hnodup.1.2 ⟨e, he, heq⟩
    rw [if_neg hne]
  | cons e front ih =>
    rw [List.cons_append, List.map_cons, List.nodup_cons] at hnodup
    obtain ⟨hp, hlive, hrest⟩ := hl
    refine ⟨hp, (Heap.live_update h c.1 e.1 f _).mpr ⟨e.2, hlive, ?_⟩, ih hrest hnodup.2⟩
    have hne : e.1 ≠ c.1 := by
      intro heq
      have := hnodup.1
      simp [heq] at this
    rw [if_neg hne]

end CtfChallenges.Framework.Memory
