import CtfChallenges.Kvaas.Ownership

/-!
# When entries share a block

Two entries come to share a block only where a command copies a string or a secret. Runs without
such a copy keep every block with one entry, and the first such copy breaks it.
-/

namespace CtfChallenges.Kvaas
open Framework Framework.Memory

/-- The strings of live nodes have been written. -/
def Written (st : Store) : Prop := ∀ i v, st.nodes.Live i v → v.payload ≠ .str none

theorem Written.empty : Written Store.empty := by
  intro i v hv
  cases hv

/-- The command copies an entry whose value is in a block of its own. -/
def CopiesBlock (st : Store) : Command → Prop
  | .copy source _ => ∃ n v, get_node_by_name st source = some (some n) ∧ st.nodes.load n = some v ∧
      (v.payload.type = .NODE_STR ∨ v.payload.type = .NODE_SECRET)
  | _ => False

/-- The name of the entry that a command sets or deletes. -/
def Command.changes : Command → Option (List UInt8)
  | .edit name _ => some name
  | .delete name => some name
  | _ => none

/-- Setting or deleting an entry leaves the values of the others. -/
def ChangesOne (st : Store) (c : Command) : Prop :=
  ∀ name n st', c.changes = some name → get_node_by_name st name = some (some n) →
    step st c = some st' → Undisturbed st st' n

private theorem written_set_payload {st st' : Store} {n : Nat} {payload : Payload}
    (hothers : ∀ i v, i ≠ n → st.nodes.Live i v → v.payload ≠ .str none)
    (hnodes : st'.nodes = (set_payload st n payload).nodes) (hpayload : payload ≠ .str none) :
    Written st' := by
  intro i w hw
  rw [hnodes] at hw
  obtain ⟨v, hv, rfl⟩ := (Heap.live_update _ _ _ _ _).mp hw
  split
  · exact hpayload
  · rename_i hne
    exact hothers i v hne hv

private theorem written_set_func {st st' : Store} {n : Nat} {v : Node} (hv : st.nodes.Live n v)
    (hothers : ∀ i w, i ≠ n → st.nodes.Live i w → w.payload ≠ .str none) {ans : Answers}
    (hset : set_func st n ans = some st') : Written st' := by
  simp only [set_func, hv.load, Option.bind_eq_bind, Option.bind_some] at hset
  cases hpayload : v.payload with
  | uint val =>
    rw [hpayload] at hset
    cases hset
    exact written_set_payload hothers rfl (by simp)
  | int val =>
    rw [hpayload] at hset
    cases hset
    exact written_set_payload hothers rfl (by simp)
  | time when =>
    rw [hpayload] at hset
    cases hset
    exact written_set_payload hothers rfl (by simp)
  | str val =>
    rw [hpayload] at hset
    cases hset
    exact written_set_payload hothers rfl (by simp)
  | secret secret =>
    rw [hpayload] at hset
    simp only [set_node_secret, Option.bind_eq_bind] at hset
    obtain ⟨data, -, hst⟩ := Option.bind_eq_some_iff.mp hset
    cases hst
    intro i w hw
    by_cases hi : i = n
    · subst hi
      have hwv : w = v := Heap.Live.unique hw hv
      rw [hwv, hpayload]
      simp
    · exact hothers i w hi hw

private theorem written_malloc {st st' : Store} {v : Node} (hwritten : Written st)
    (hnodes : st'.nodes = st.nodes.malloc v) :
    ∀ i w, i ≠ st.nodes.next → st'.nodes.Live i w → w.payload ≠ .str none := by
  intro i w hne hw
  rw [hnodes, Heap.live_malloc] at hw
  obtain hold | ⟨heq, -⟩ := hw
  · exact hwritten i w hold
  · exact absurd heq hne

private theorem Nodes.lookup {st : Store} {cells : List (Nat × Node)} (h : Nodes st cells)
    (name : List UInt8) :
    Kvaas.get_node_by_name st name = some none ∨ ∃ front d back, cells = front ++ d :: back ∧
      Kvaas.get_node_by_name st name = some (some d.1) := by
  rw [h.get_node_by_name]
  cases hfind : cells.find? fun c => c.2.name == truncated name with
  | none => exact .inl rfl
  | some d =>
    obtain ⟨-, front, back, hcells, -⟩ := List.find?_eq_some_iff_append.mp hfind
    exact .inr ⟨front, d, back, hcells, rfl⟩

private theorem cmd_copy_eq {st : Store} {source new : List UInt8} {n : Nat} {v : Node}
    (hget : get_node_by_name st source = some (some n)) (hv : st.nodes.Live n v) :
    cmd_copy st source new = some (withCopy st v new) := by
  simp [cmd_copy, hget, hv.load, set_node_name, insert_node, withCopy, truncated]

/-- What a command can do: nothing when the name is missing, or one operation on a new node or on a
node of the list. -/
private theorem step_cases {st st' : Store} {cells : List (Nat × Node)} (h : Nodes st cells)
    {c : Command} (hstep : step st c = some st') :
    st' = st ∨
      (∃ name type ans, c = .add name type ans ∧
        set_func (withNode st name type) st.nodes.next ans = some st') ∨
      ∃ front d back, cells = front ++ d :: back ∧
        ((∃ name ans, c = .edit name ans ∧ get_node_by_name st name = some (some d.1) ∧
          set_func st d.1 ans = some st') ∨
        (∃ source new, c = .copy source new ∧ get_node_by_name st source = some (some d.1) ∧
          st' = withCopy st d.2 new) ∨
        ∃ name, c = .delete name ∧ get_node_by_name st name = some (some d.1) ∧
          delete_node st d.1 = some st') := by
  cases c with
  | add name type ans =>
    rw [step, cmd_add_eq] at hstep
    exact .inr (.inl ⟨name, type, ans, rfl, hstep⟩)
  | edit name ans =>
    rw [step, cmd_edit] at hstep
    obtain hget | ⟨front, d, back, hcells, hget⟩ := h.lookup name
    · rw [hget] at hstep
      exact .inl (Option.some.inj hstep).symm
    · rw [hget] at hstep
      exact .inr (.inr ⟨front, d, back, hcells, .inl ⟨name, ans, rfl, hget, hstep⟩⟩)
  | copy source new =>
    rw [step] at hstep
    obtain hget | ⟨front, d, back, hcells, hget⟩ := h.lookup source
    · rw [cmd_copy, hget] at hstep
      exact .inl (Option.some.inj hstep).symm
    · have hd : st.nodes.Live d.1 d.2 := h.linked.live d (by simp [hcells])
      rw [cmd_copy_eq hget hd] at hstep
      exact .inr (.inr ⟨front, d, back, hcells,
        .inr (.inl ⟨source, new, rfl, hget, (Option.some.inj hstep).symm⟩)⟩)
  | delete name =>
    rw [step, cmd_delete] at hstep
    obtain hget | ⟨front, d, back, hcells, hget⟩ := h.lookup name
    · rw [hget] at hstep
      exact .inl (Option.some.inj hstep).symm
    · rw [hget] at hstep
      exact .inr (.inr ⟨front, d, back, hcells, .inr (.inr ⟨name, rfl, hget, hstep⟩)⟩)

private theorem written_delete_node {st st' : Store} {front back : List (Nat × Node)}
    {d : Nat × Node} (h : Nodes st (front ++ d :: back)) (hwritten : Written st)
    (hdelete : delete_node st d.1 = some st') : Written st' := by
  obtain ⟨st'', cells', hrun, hcells', hcore, -⟩ := h.delete_node
  rw [hrun] at hdelete
  cases hdelete
  intro i w hw
  obtain ⟨c, hc, heq⟩ := mem_of_map_core hcore (hcells'.all i w hw)
  have hmem : c ∈ front ++ d :: back := by
    rw [List.mem_append] at hc ⊢
    exact hc.imp id (List.mem_cons_of_mem d)
  have hpayload : c.2.payload = w.payload := congrArg (fun k => k.2.2) heq
  rw [← hpayload]
  exact hwritten c.1 c.2 (h.linked.live c hmem)

private theorem step_written {st st' : Store} {cells : List (Nat × Node)} (h : Nodes st cells)
    (hwritten : Written st) {c : Command} (hstep : step st c = some st') : Written st' := by
  obtain rfl | ⟨name, type, ans, -, hset⟩ | ⟨front, d, back, rfl, hnode⟩ := step_cases h hstep
  · exact hwritten
  · exact written_set_func (Heap.live_malloc_next st.nodes _) (written_malloc hwritten rfl) hset
  · have hd : st.nodes.Live d.1 d.2 := h.linked.live d (by simp)
    obtain ⟨name, ans, -, -, hset⟩ | ⟨source, new, -, -, rfl⟩ | ⟨name, -, -, hdelete⟩ := hnode
    · exact written_set_func hd (fun i v _ hv => hwritten i v hv) hset
    · intro i w hw
      obtain hold | ⟨-, rfl⟩ := (Heap.live_malloc _ _ _ _).mp hw
      · exact hwritten i w hold
      · exact hwritten d.1 d.2 hd
    · exact written_delete_node h hwritten hdelete

private theorem actsOn_withCopy {st : Store} (howned : Owned st) {v : Node}
    (hstr : v.payload.type ≠ .NODE_STR) (hsecret : v.payload.type ≠ .NODE_SECRET)
    (new : List UInt8) : ActsOn st (withCopy st v new) st.nodes.next := by
  have hnone : stringsOf (withCopy st v new) v.payload = [] ∧ secretsOf v.payload = [] := by
    cases hpayload : v.payload with
    | uint val => exact ⟨rfl, rfl⟩
    | int val => exact ⟨rfl, rfl⟩
    | time when => exact ⟨rfl, rfl⟩
    | str val => exact absurd (by rw [hpayload]; rfl) hstr
    | secret secret => exact absurd (by rw [hpayload]; rfl) hsecret
  refine actsOn_push howned rfl rfl (fun _ _ hd => hd) howned.freed_once.2.2 hnone.1 ?_
  intro a ha
  simp only [hnone.2, List.not_mem_nil] at ha

private theorem step_owned {st st' : Store} {cells : List (Nat × Node)} (h : Nodes st cells)
    (howned : Owned st) {c : Command} (hcopy : ¬ CopiesBlock st c) (hstep : step st c = some st') :
    Owned st' := by
  obtain rfl | ⟨name, type, ans, -, hset⟩ | ⟨front, d, back, rfl, hnode⟩ := step_cases h hstep
  · exact howned
  · have hfresh := (actsOn_withNode howned name type).owned howned
    exact (actsOn_set_func hfresh (Heap.live_malloc_next st.nodes _) hset).owned hfresh
  · have hd : st.nodes.Live d.1 d.2 := h.linked.live d (by simp)
    obtain ⟨name, ans, -, -, hset⟩ | ⟨source, new, rfl, hget, rfl⟩ | ⟨name, -, -, hdelete⟩ := hnode
    · exact (actsOn_set_func howned hd hset).owned howned
    · have hstr : d.2.payload.type ≠ .NODE_STR := fun htype =>
        hcopy ⟨d.1, d.2, hget, hd.load, .inl htype⟩
      have hsecret : d.2.payload.type ≠ .NODE_SECRET := fun htype =>
        hcopy ⟨d.1, d.2, hget, hd.load, .inr htype⟩
      exact (actsOn_withCopy howned hstr hsecret new).owned howned
    · exact (actsOn_delete_node h howned hdelete).owned howned

private theorem changesOne_of_owned {st : Store} {cells : List (Nat × Node)} (h : Nodes st cells)
    (howned : Owned st) (c : Command) : ChangesOne st c := by
  intro name n st' hchanges hget hstep
  obtain rfl | ⟨_, _, _, rfl, -⟩ | ⟨front, d, back, rfl, hnode⟩ := step_cases h hstep
  · exact fun j v _ hv => ⟨v, hv, rfl, rfl⟩
  · cases hchanges
  · have hd : st.nodes.Live d.1 d.2 := h.linked.live d (by simp)
    obtain ⟨_, ans, rfl, hfound, hset⟩ | ⟨_, _, rfl, -⟩ | ⟨_, rfl, hfound, hdelete⟩ := hnode
    · cases hchanges
      rw [hfound] at hget
      cases hget
      exact (actsOn_set_func howned hd hset).undisturbed howned
    · cases hchanges
    · cases hchanges
      rw [hfound] at hget
      cases hget
      exact (actsOn_delete_node h howned hdelete).undisturbed howned

private theorem not_owned_of_copiesBlock {st : Store} {cells : List (Nat × Node)}
    (h : Nodes st cells) (hwritten : Written st) {c : Command} (hcopy : CopiesBlock st c) :
    ∃ st', step st c = some st' ∧ ¬ Owned st' := by
  cases c with
  | add => exact hcopy.elim
  | edit => exact hcopy.elim
  | delete => exact hcopy.elim
  | copy source new =>
    obtain ⟨n, v, hget, hload, htype⟩ := hcopy
    obtain hnone | ⟨front, d, back, rfl, hfound⟩ := h.lookup source
    · rw [hnone] at hget
      cases hget
    · have hd : st.nodes.Live d.1 d.2 := h.linked.live d (by simp)
      rw [hfound] at hget
      cases hget
      rw [hd.load] at hload
      cases hload
      refine ⟨withCopy st d.2 new, cmd_copy_eq hfound hd, ?_⟩
      intro howned
      have hold : (withCopy st d.2 new).nodes.Live d.1 d.2 := hd.malloc _
      have hcopied : (withCopy st d.2 new).nodes.Live st.nodes.next
          { d.2 with name := truncated new, next := st.node_head } := Heap.live_malloc_next _ _
      have hne : d.1 ≠ st.nodes.next := Nat.ne_of_lt hd.lt
      cases hpayload : d.2.payload with
      | uint val => simp [hpayload, Payload.type] at htype
      | int val => simp [hpayload, Payload.type] at htype
      | time when => simp [hpayload, Payload.type] at htype
      | str val =>
        cases val with
        | none => exact hwritten d.1 d.2 hd hpayload
        | some a =>
          apply hne
          apply howned.strings_apart d.1 st.nodes.next _ _ a hold hcopied
          · rw [hpayload]
            exact List.mem_singleton.mpr rfl
          · rw [hpayload]
            exact List.mem_singleton.mpr rfl
      | secret secret =>
        apply hne
        apply howned.secrets_apart d.1 st.nodes.next _ _ secret hold hcopied
        · rw [hpayload]
          exact List.mem_singleton.mpr rfl
        · rw [hpayload]
          exact List.mem_singleton.mpr rfl

private theorem step_nodes {st st' : Store} {c : Command} (h : ∃ cells, Nodes st cells)
    (hstep : step st c = some st') : ∃ cells, Nodes st' cells := by
  obtain ⟨cells, h⟩ := h
  obtain ⟨hnone, -⟩ | ⟨st₁, cells₁, hsome, h₁, -⟩ := step_refines h c
  · rw [hnone] at hstep
    cases hstep
  · rw [hsome] at hstep
    cases hstep
    exact ⟨cells₁, h₁⟩

/-- In the states of a run every block stays with one entry and every command changes only the
entry that it names, if and only if the run never copies a string or a secret. -/
theorem ownership_iff (cmds : List Command) :
    ((∀ pre, pre <+: cmds → ∀ st, run step pre Store.empty = some st → Owned st) ∧
      ∀ p ∈ visited step cmds Store.empty, ChangesOne p.1 p.2) ↔
    ∀ p ∈ visited step cmds Store.empty, ¬ CopiesBlock p.1 p.2 := by
  constructor
  · intro ⟨howned, _⟩ p hp hcopy
    obtain ⟨js, hjs, hrun⟩ := exists_prefix_of_mem_visited hp
    have hkeep : ∀ st c st', (∃ cells, Nodes st cells) ∧ Written st → step st c = some st' →
        (∃ cells, Nodes st' cells) ∧ Written st' := by
      intro st c st' ⟨hnodes, hwritten⟩ hstep
      obtain ⟨cells, h⟩ := hnodes
      exact ⟨step_nodes ⟨cells, h⟩ hstep, step_written h hwritten hstep⟩
    obtain ⟨⟨cells, h⟩, hwritten⟩ :=
      run_invariant hkeep js ⟨⟨[], Nodes.empty⟩, Written.empty⟩ hrun
    obtain ⟨st', hstep, hnot⟩ := not_owned_of_copiesBlock h hwritten hcopy
    apply hnot
    apply howned (js ++ [p.2]) hjs st'
    rw [run_append, hrun, Option.bind_some, run_cons, hstep]
    rfl
  · intro hcopies
    have hinv : ∀ pre, pre <+: cmds → ∀ st, run step pre Store.empty = some st →
        (∃ cells, Nodes st cells) ∧ Owned st := by
      have hkeep : ∀ st c st', ¬ CopiesBlock st c → (∃ cells, Nodes st cells) ∧ Owned st →
          step st c = some st' → (∃ cells, Nodes st' cells) ∧ Owned st' := by
        intro st c st' hcopy ⟨hnodes, howned⟩ hstep
        obtain ⟨cells, h⟩ := hnodes
        exact ⟨step_nodes ⟨cells, h⟩ hstep, step_owned h howned hcopy hstep⟩
      intro pre hpre st hrun
      exact run_invariant_of_visited hkeep ⟨⟨[], Nodes.empty⟩, Owned.empty⟩ hcopies hpre hrun
    constructor
    · intro pre hpre st hrun
      exact (hinv pre hpre st hrun).2
    · intro p hp
      obtain ⟨js, hjs, hrun⟩ := exists_prefix_of_mem_visited hp
      have hpre : js <+: cmds := (List.prefix_append js [p.2]).trans hjs
      obtain ⟨⟨cells, h⟩, howned⟩ := hinv js hpre p.1 hrun
      exact changesOne_of_owned h howned p.2

/-- Deleting the source of a copied string frees what the copy refers to, and deleting the copy then
frees it again. -/
theorem copied_string_freed :
    ∃ st st' st'', run step [.add [120] .NODE_STR ⟨none, [118], [], 0⟩, .copy [120] [121]]
        Store.empty = some st ∧ step st (.delete [120]) = some st' ∧
      step st' (.delete [121]) = some st'' ∧ ¬ Owned st ∧ ¬ ChangesOne st (.delete [120]) ∧
      ¬ st''.strings.FreedOnce := by
  refine ⟨_, _, _, rfl, rfl, rfl, ?_, ?_, ?_⟩
  · intro howned
    have heq : 0 = 1 := howned.strings_apart 0 1 ⟨[120], .str (some 0), none⟩
      ⟨[121], .str (some 0), some 0⟩ 0 rfl rfl (by decide) (by decide)
    cases heq
  · intro hchanges
    obtain ⟨w, hw, -, hvalue⟩ := hchanges [120] 0 _ rfl rfl rfl 1 ⟨[121], .str (some 0), some 0⟩
      (by decide) rfl
    cases hw
    cases hvalue
  · intro hfreed
    exact absurd (hfreed ⟨[118], 2⟩ (by decide)) (by decide)

end CtfChallenges.Kvaas
