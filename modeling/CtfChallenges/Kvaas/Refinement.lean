import CtfChallenges.Framework.Run
import CtfChallenges.Kvaas.Store
import Mathlib.Data.List.Find

/-!
# The store is a list of entries

A command does to the nodes from `node_head` on what it says to a list of names and types: it puts
one in front, takes the first with a name out, or leaves the list as it is.
-/

namespace CtfChallenges.Kvaas
open Framework Framework.Memory

/-! ## Reference -/

abbrev Entry := List UInt8 × node_type

/-- The part of a name that is stored and compared. -/
def truncated (name : List UInt8) : List UInt8 := name.take NODE_NAME_SZ

/-- A name that `prompt_user_key` reads is stored and compared as it is. -/
theorem truncated_eq_self {name : List UInt8} (h : name.length ≤ NODE_NAME_SZ) :
    truncated name = name :=
  List.take_of_length_le h

/-- The commands on the list of entries. -/
def refer (entries : List Entry) : Command → List Entry
  | .add name type _ => (truncated name, type) :: entries
  | .edit _ _ => entries
  | .copy source new =>
    match entries.find? fun e => e.1 == truncated source with
    | none => entries
    | some e => (truncated new, e.2) :: entries
  | .delete name => entries.eraseP fun e => e.1 == truncated name

/-! ## Nodes of a store -/

/-- The cells are the live nodes, linked in this order from the head. Their names are stored ones,
and their secrets have been allocated. -/
structure Nodes (st : Store) (cells : List (Nat × Node)) : Prop where
  linked : Linked Node.next st.nodes st.node_head cells
  nodup : (cells.map Prod.fst).Nodup
  all : ∀ a v, st.nodes.Live a v → (a, v) ∈ cells
  names : ∀ c ∈ cells, truncated c.2.name = c.2.name
  secrets : ∀ c ∈ cells, ∀ a, c.2.payload = .secret a → a < st.secrets.next

def entry (c : Nat × Node) : Entry := (c.2.name, c.2.payload.type)

theorem Nodes.empty : Nodes Store.empty [] := by
  constructor
  · rfl
  · exact List.nodup_nil
  · intro a v hv
    cases hv
  · intro c hc
    cases hc
  · intro c hc
    cases hc

theorem Nodes.length_lt {st : Store} {cells : List (Nat × Node)} (h : Nodes st cells) :
    cells.length < st.fuel :=
  Nat.lt_succ_of_le (h.linked.length_le h.nodup)

private theorem sameName_iff (name node_name : List UInt8) :
    sameName name node_name = true ↔ truncated name = truncated node_name :=
  beq_iff_eq

/-- `get_node_by_name` returns the first node with the name. -/
theorem Nodes.get_node_by_name {st : Store} {cells : List (Nat × Node)} (h : Nodes st cells)
    (name : List UInt8) :
    get_node_by_name st name =
      some ((cells.find? fun c => c.2.name == truncated name).map Prod.fst) := by
  rw [Kvaas.get_node_by_name, walk_spec _ h.linked h.length_lt]
  have hfind : cells.find? (fun c => sameName name c.2.name) =
      cells.find? fun c => c.2.name == truncated name := by
    apply List.find?_congr
    intro c hc
    rw [Bool.eq_iff_iff, sameName_iff, h.names c hc, beq_iff_eq, eq_comm]
  rw [hfind]

/-! ## What the operations do to the nodes -/

theorem Nodes.push {st st' : Store} {cells : List (Nat × Node)} (h : Nodes st cells) {v : Node}
    (hnodes : st'.nodes = st.nodes.malloc v) (hhead : st'.node_head = some st.nodes.next)
    (hsecrets : st.secrets.next ≤ st'.secrets.next) (hname : truncated v.name = v.name)
    (hnext : v.next = st.node_head) (hv : ∀ a, v.payload = .secret a → a < st'.secrets.next) :
    Nodes st' ((st.nodes.next, v) :: cells) := by
  constructor
  · refine ⟨hhead, ?_, ?_⟩
    · rw [hnodes]
      exact (Heap.live_malloc _ _ _ _).mpr (.inr ⟨rfl, rfl⟩)
    · rw [hnext, hnodes]
      exact h.linked.frame fun c _ hlive => (Heap.live_malloc _ _ _ _).mpr (.inl hlive)
  · rw [List.map_cons, List.nodup_cons]
    refine ⟨?_, h.nodup⟩
    intro hmem
    obtain ⟨c, hc, heq⟩ := List.mem_map.mp hmem
    exact Nat.ne_of_lt (h.linked.live c hc).lt heq
  · intro a w hlive
    rw [hnodes, Heap.live_malloc] at hlive
    obtain hold | ⟨rfl, rfl⟩ := hlive
    · exact List.mem_cons_of_mem _ (h.all a w hold)
    · exact List.mem_cons_self
  · rw [List.forall_mem_cons]
    exact ⟨hname, h.names⟩
  · rw [List.forall_mem_cons]
    exact ⟨hv, fun c hc a ha => Nat.lt_of_lt_of_le (h.secrets c hc a ha) hsecrets⟩

theorem map_fst_replaced (cells : List (Nat × Node)) (a : Nat) (f : Node → Node) :
    (replaced cells a f).map Prod.fst = cells.map Prod.fst := by
  rw [replaced, List.map_map]
  rfl

theorem Nodes.set_payload {st st' : Store} {cells : List (Nat × Node)} (h : Nodes st cells)
    {n : Nat} {payload : Payload} (hnodes : st'.nodes = (set_payload st n payload).nodes)
    (hhead : st'.node_head = st.node_head) (hsecrets : st.secrets.next ≤ st'.secrets.next)
    (hpayload : ∀ a, payload = .secret a → a < st'.secrets.next) :
    Nodes st' (replaced cells n fun node => { node with payload := payload }) := by
  constructor
  · rw [hnodes, hhead]
    exact h.linked.update n (f := fun node => { node with payload := payload }) fun _ => rfl
  · rw [map_fst_replaced]
    exact h.nodup
  · intro b w hlive
    rw [hnodes] at hlive
    obtain ⟨v, hv, rfl⟩ := (Heap.live_update _ _ _ _ _).mp hlive
    exact List.mem_map.mpr ⟨(b, v), h.all b v hv, rfl⟩
  · intro c hc
    obtain ⟨c', hc', rfl⟩ := List.mem_map.mp hc
    have hname := h.names c' hc'
    dsimp only
    split <;> exact hname
  · intro c hc a ha
    obtain ⟨c', hc', rfl⟩ := List.mem_map.mp hc
    dsimp only at ha
    split at ha
    · exact hpayload a ha
    · exact Nat.lt_of_lt_of_le (h.secrets c' hc' a ha) hsecrets

/-- A payload of the same type changes no entry. -/
theorem Nodes.map_entry_set_payload {st : Store} {cells : List (Nat × Node)} (h : Nodes st cells)
    {n : Nat} {v : Node} (hv : st.nodes.Live n v) {payload : Payload}
    (htype : payload.type = v.payload.type) :
    (replaced cells n fun node => { node with payload := payload }).map entry =
      cells.map entry := by
  rw [replaced, List.map_map]
  apply List.map_congr_left
  intro c hc
  simp only [Function.comp_apply, entry]
  split
  · rename_i hn
    have hsame : v = c.2 := hv.unique (hn ▸ h.linked.live c hc)
    rw [htype, hsame]
  · rfl

/-- Only the nodes and the head count, and that no secret is lost. -/
theorem Nodes.congr {st st' : Store} {cells : List (Nat × Node)} (h : Nodes st cells)
    (hnodes : st'.nodes = st.nodes) (hhead : st'.node_head = st.node_head)
    (hsecrets : st.secrets.next ≤ st'.secrets.next) : Nodes st' cells := by
  refine ⟨?_, h.nodup, ?_, h.names, ?_⟩
  · rw [hnodes, hhead]
    exact h.linked
  · rw [hnodes]
    exact h.all
  · intro c hc a ha
    exact Nat.lt_of_lt_of_le (h.secrets c hc a ha) hsecrets

/-! ## The commands that keep the nodes -/

/-- The lines with which encrypting divides by zero: no key for a value. -/
def NoKey (ans : Answers) : Prop := ans.first = [] ∧ ans.second ≠ []

theorem encrypt_secret_data_spec (ans : Answers) :
    (encrypt_secret_data (ans.first.take 32) ans.second = none ∧ NoKey ans) ∨
      ∃ data, encrypt_secret_data (ans.first.take 32) ans.second = some data := by
  by_cases hkey : (ans.first.take 32).length = 0 ∧ ans.second.length ≠ 0
  · refine .inl ⟨if_pos hkey, ?_, ?_⟩
    · rw [List.length_take] at hkey
      exact List.length_eq_zero_iff.mp (by omega)
    · exact fun heq => hkey.2 (by rw [heq]; rfl)
  · exact .inr ⟨_, if_neg hkey⟩

/-- Setting the value of a node keeps all entries. -/
theorem Nodes.set_func {st : Store} {cells : List (Nat × Node)} (h : Nodes st cells) {n : Nat}
    {v : Node} (hv : st.nodes.Live n v) (ans : Answers) :
    (Kvaas.set_func st n ans = none ∧ v.payload.type = .NODE_SECRET ∧ NoKey ans) ∨
      ∃ st' cells', Kvaas.set_func st n ans = some st' ∧ Nodes st' cells' ∧
        cells'.map entry = cells.map entry := by
  have hset : ∀ payload : Payload, payload.type = v.payload.type →
      (∀ a, payload = .secret a → a < st.secrets.next) →
      ∀ st', st'.nodes = (Kvaas.set_payload st n payload).nodes → st'.node_head = st.node_head →
        st.secrets.next ≤ st'.secrets.next →
        ∃ cells', Nodes st' cells' ∧ cells'.map entry = cells.map entry := by
    intro payload htype hpayload st' hnodes hhead hsecrets
    exact ⟨_, h.set_payload hnodes hhead hsecrets fun a ha =>
      Nat.lt_of_lt_of_le (hpayload a ha) hsecrets, h.map_entry_set_payload hv htype⟩
  simp only [Kvaas.set_func, hv.load, Option.bind_eq_bind, Option.bind_some]
  cases hpayload : v.payload with
  | uint val =>
    obtain ⟨cells', hcells'⟩ := hset (.uint (ans.num <|> val)) (by rw [hpayload]; rfl)
      (fun a ha => by cases ha) _ rfl rfl (Nat.le_refl _)
    exact .inr ⟨_, cells', rfl, hcells'⟩
  | int val =>
    obtain ⟨cells', hcells'⟩ := hset (.int (ans.num <|> val)) (by rw [hpayload]; rfl)
      (fun a ha => by cases ha) _ rfl rfl (Nat.le_refl _)
    exact .inr ⟨_, cells', rfl, hcells'⟩
  | str val =>
    obtain ⟨cells', hcells'⟩ := hset (.str (some st.strings.next)) (by rw [hpayload]; rfl)
      (fun a ha => by cases ha) (set_node_str st n ans.first) rfl rfl (Nat.le_refl _)
    exact .inr ⟨_, cells', rfl, hcells'⟩
  | time when =>
    obtain ⟨cells', hcells'⟩ := hset (.time (some ans.now)) (by rw [hpayload]; rfl)
      (fun a ha => by cases ha) _ rfl rfl (Nat.le_refl _)
    exact .inr ⟨_, cells', rfl, hcells'⟩
  | secret secret =>
    simp only [set_node_secret, Option.bind_eq_bind]
    obtain ⟨hnone, hkey⟩ | ⟨data, hdata⟩ := encrypt_secret_data_spec ans
    · exact .inl ⟨by rw [hnone]; rfl, rfl, hkey⟩
    · rw [hdata, Option.bind_some]
      exact .inr ⟨_, cells, rfl, h.congr rfl rfl (by rw [Heap.next_update]), rfl⟩

/-! ## Adding and copying -/

/-- The payload of a fresh node. -/
def freshPayload (st : Store) : node_type → Payload
  | .NODE_UINT => .uint none
  | .NODE_INT => .int none
  | .NODE_STR => .str none
  | .NODE_TIME => .time none
  | .NODE_SECRET => .secret st.secrets.next

theorem freshPayload_type (st : Store) (t : node_type) : (freshPayload st t).type = t := by
  cases t <;> rfl

/-- A named node of the type in front of the store. -/
def withNode (st : Store) (name : List UInt8) (t : node_type) : Store where
  node_head := some st.nodes.next
  nodes := st.nodes.malloc ⟨truncated name, freshPayload st t, st.node_head⟩
  strings := st.strings
  secrets := if t = .NODE_SECRET then st.secrets.malloc ⟨none, none, none⟩ else st.secrets

theorem add_node_snd (st : Store) (t : node_type) : (add_node st t).2 = st.nodes.next := by
  cases t <;> rfl

theorem set_node_name_add_node (st : Store) (name : List UInt8) (t : node_type) :
    set_node_name (add_node st t).1 (add_node st t).2 name = withNode st name t := by
  cases t <;> simp [add_node, alloc_node, insert_node, set_node_name, withNode, freshPayload,
    truncated]

theorem cmd_add_eq (st : Store) (name : List UInt8) (t : node_type) (ans : Answers) :
    cmd_add st name t ans = set_func (withNode st name t) st.nodes.next ans := by
  rw [← set_node_name_add_node, ← add_node_snd st t]
  rfl

private theorem truncated_truncated (name : List UInt8) :
    truncated (truncated name) = truncated name := by
  rw [truncated, truncated, List.take_take, Nat.min_self]

theorem Nodes.withNode {st : Store} {cells : List (Nat × Node)} (h : Nodes st cells)
    (name : List UInt8) (t : node_type) :
    Nodes (Kvaas.withNode st name t)
      ((st.nodes.next, ⟨truncated name, freshPayload st t, st.node_head⟩) :: cells) := by
  apply h.push rfl rfl _ (truncated_truncated name) rfl _
  · simp only [Kvaas.withNode]
    split
    · rw [Heap.next_malloc]
      exact Nat.le_succ _
    · exact Nat.le_refl _
  · intro a ha
    cases t with
    | NODE_SECRET =>
      cases ha
      rw [Kvaas.withNode, if_pos rfl, Heap.next_malloc]
      exact Nat.lt_succ_self _
    | NODE_UINT => cases ha
    | NODE_INT => cases ha
    | NODE_STR => cases ha
    | NODE_TIME => cases ha

/-- A copy of a node under a new name in front of the store. -/
def withCopy (st : Store) (node : Node) (new : List UInt8) : Store :=
  { st with
    node_head := some st.nodes.next
    nodes := st.nodes.malloc { node with name := truncated new, next := st.node_head } }

theorem Nodes.withCopy {st : Store} {cells : List (Nat × Node)} (h : Nodes st cells)
    {c : Nat × Node} (hc : c ∈ cells) (new : List UInt8) :
    Nodes (Kvaas.withCopy st c.2 new)
      ((st.nodes.next, { c.2 with name := truncated new, next := st.node_head }) :: cells) := by
  have hsecrets : st.secrets.next ≤ (Kvaas.withCopy st c.2 new).secrets.next := Nat.le_refl _
  exact h.push rfl rfl hsecrets (truncated_truncated new) rfl (h.secrets c hc)

/-- A copy is made of the first node with the name. -/
theorem Nodes.cmd_copy {st : Store} {cells : List (Nat × Node)} (h : Nodes st cells)
    (source new : List UInt8) :
    Kvaas.cmd_copy st source new =
      some (match cells.find? fun c => c.2.name == truncated source with
        | none => st
        | some c => Kvaas.withCopy st c.2 new) := by
  rw [Kvaas.cmd_copy, h.get_node_by_name]
  cases hfind : cells.find? fun c => c.2.name == truncated source with
  | none => rfl
  | some c =>
    have hlive := h.linked.live c (List.mem_of_find?_eq_some hfind)
    simp [hlive.load, set_node_name, insert_node, Kvaas.withCopy, truncated]

/-! ## Deleting -/

/-- What a node is apart from its link. -/
def core (c : Nat × Node) : Nat × List UInt8 × Payload := (c.1, c.2.name, c.2.payload)

theorem map_entry_of_map_core {cells cells' : List (Nat × Node)}
    (h : cells'.map core = cells.map core) : cells'.map entry = cells.map entry := by
  have hentry : entry = (fun k => (k.2.1, k.2.2.type)) ∘ core := rfl
  rw [hentry, ← List.map_map, h, List.map_map]

theorem mem_of_map_core {cells cells' : List (Nat × Node)} (h : cells'.map core = cells.map core)
    {c' : Nat × Node} (hc' : c' ∈ cells') : ∃ c ∈ cells, core c = core c' := by
  have hmem : core c' ∈ cells.map core := h ▸ List.mem_map_of_mem hc'
  exact List.mem_map.mp hmem

/-- The strings and the secrets after what a payload points to has been freed. -/
def released (st : Store) : Payload → Heap (List UInt8) × Heap SecretData
  | .str val => (freePointer st.strings val, st.secrets)
  | .secret secret =>
    (freePointer st.strings ((st.secrets.load secret).bind SecretData.data),
      st.secrets.free secret)
  | _ => (st.strings, st.secrets)

private theorem free_node_eq {st : Store} {n : Nat} {v : Node} (hv : st.nodes.Live n v)
    (hsecret : ∀ a, v.payload = .secret a → a < st.secrets.next) :
    free_node st n = some { st with
      nodes := st.nodes.free n
      strings := (released st v.payload).1
      secrets := (released st v.payload).2 } := by
  simp only [free_node, hv.load, Option.bind_eq_bind, Option.bind_some]
  cases hpayload : v.payload with
  | uint val => rfl
  | int val => rfl
  | str val => rfl
  | time when => rfl
  | secret secret =>
    have hlt := hsecret secret hpayload
    obtain ⟨d, hd⟩ : ∃ d, st.secrets.load secret = some d := by
      rw [Heap.load, List.getElem?_eq_getElem hlt]
      exact ⟨_, rfl⟩
    simp only [released, hd, Option.bind_some]
    rfl

private theorem Nodes.freed {st : Store} {front back : List (Nat × Node)} {d : Nat × Node}
    (h : Nodes st (front ++ d :: back)) {cells' : List (Nat × Node)} {st' : Store}
    {nodes : Heap Node} (hcore : cells'.map core = (front ++ back).map core)
    (hlinked : Linked Node.next nodes st'.node_head cells')
    (hall : ∀ a v, a ≠ d.1 → nodes.Live a v → (a, v) ∈ cells')
    (hnodes : st'.nodes = (nodes.update d.1 fun node => { node with next := none }).free d.1)
    (hsecrets : st'.secrets.next = st.secrets.next) : Nodes st' cells' := by
  have hfst : cells'.map Prod.fst = (front ++ back).map Prod.fst := by
    have hmap := congrArg (List.map Prod.fst) hcore
    rwa [List.map_map, List.map_map] at hmap
  have hnodup := h.nodup
  rw [List.map_append, List.map_cons, List.nodup_middle, List.nodup_cons, ← List.map_append,
    ← hfst] at hnodup
  have hold : ∀ c ∈ front ++ back, c ∈ front ++ d :: back := by
    intro c hc
    rw [List.mem_append] at hc ⊢
    exact hc.imp id (List.mem_cons_of_mem d)
  constructor
  · apply hlinked.frame
    intro c hc hlive
    have hne : c.1 ≠ d.1 := fun heq => hnodup.1 (heq ▸ List.mem_map_of_mem hc)
    rw [hnodes, Heap.live_free, Heap.live_update]
    exact ⟨hne, c.2, hlive, by rw [if_neg hne]⟩
  · exact hnodup.2
  · intro a v hlive
    rw [hnodes, Heap.live_free, Heap.live_update] at hlive
    obtain ⟨hne, w, hw, rfl⟩ := hlive
    rw [if_neg hne]
    exact hall a w hne hw
  · intro c' hc'
    obtain ⟨c, hc, heq⟩ := mem_of_map_core hcore hc'
    have hname : c.2.name = c'.2.name := congrArg (fun k => k.2.1) heq
    rw [← hname]
    exact h.names c (hold c hc)
  · intro c' hc' a ha
    obtain ⟨c, hc, heq⟩ := mem_of_map_core hcore hc'
    have hpayload : c.2.payload = c'.2.payload := congrArg (fun k => k.2.2) heq
    rw [hsecrets]
    exact h.secrets c (hold c hc) a (hpayload.trans ha)

private theorem released_secrets_next (st : Store) (payload : Payload) :
    (released st payload).2.next = st.secrets.next := by
  cases payload <;> simp [released]

/-- Deleting a node takes it out of the list and frees it with what it points to. -/
theorem Nodes.delete_node {st : Store} {front back : List (Nat × Node)} {d : Nat × Node}
    (h : Nodes st (front ++ d :: back)) :
    ∃ st' cells', Kvaas.delete_node st d.1 = some st' ∧ Nodes st' cells' ∧
      cells'.map core = (front ++ back).map core ∧
      st'.strings = (released st d.2.payload).1 ∧ st'.secrets = (released st d.2.payload).2 ∧
      (st.nodes.FreedOnce → st'.nodes.FreedOnce) := by
  have hmem : d ∈ front ++ d :: back := List.mem_append_right _ List.mem_cons_self
  have hd : st.nodes.Live d.1 d.2 := h.linked.live d hmem
  have hsecret := h.secrets d hmem
  simp only [Kvaas.delete_node, hd.load, Option.bind_eq_bind, Option.bind_some]
  obtain rfl | ⟨front, c, rfl⟩ := List.eq_nil_or_concat front
  · have hhead : st.node_head = some d.1 := h.linked.1
    have hcleared : (clear_next { st with node_head := d.2.next } d.1).nodes.Live d.1
        { d.2 with next := none } :=
      (Heap.live_update _ _ _ _ _).mpr ⟨d.2, hd, by rw [if_pos rfl]⟩
    rw [if_pos hhead, free_node_eq hcleared hsecret]
    refine ⟨_, back, rfl, ?_, rfl, rfl, rfl, fun hf => (hf.update _ _).free hcleared⟩
    apply h.freed rfl h.linked.2.2 _ rfl (released_secrets_next _ _)
    intro a v hne hlive
    have hold := h.all a v hlive
    rw [List.nil_append, List.mem_cons] at hold
    exact hold.resolve_left fun heq => hne (congrArg Prod.fst heq)
  · rw [List.concat_eq_append] at h ⊢
    have hassoc : front ++ [c] ++ d :: back = front ++ c :: d :: back := by simp
    have hlinked := h.linked
    have hnodup := h.nodup
    have hlength := h.length_lt
    rw [hassoc] at hlinked hnodup hlength
    have hne : c.1 ≠ d.1 := by
      intro heq
      simp [heq, List.nodup_append] at hnodup
    have hhead : st.node_head ≠ some d.1 := by
      intro hhead
      cases front with
      | nil => exact hne (Option.some.inj (hlinked.1.symm.trans hhead))
      | cons e front =>
        have heq : e.1 = d.1 := Option.some.inj (hlinked.1.symm.trans hhead)
        simp [heq] at hnodup
    have hwalk : walk Node.next st.nodes (fun p => p.next == some d.1) st.fuel st.node_head =
        some (some c.1) := by
      rw [walk_spec _ hlinked hlength, hlinked.find_before hnodup]
      rfl
    have hcleared : (clear_next { st with
        nodes := st.nodes.update c.1 fun before => { before with next := d.2.next } }
          d.1).nodes.Live d.1 { d.2 with next := none } := by
      refine (Heap.live_update _ _ _ _ _).mpr ⟨d.2, ?_, by rw [if_pos rfl]⟩
      exact (Heap.live_update _ _ _ _ _).mpr ⟨d.2, hd, by rw [if_neg (Ne.symm hne)]⟩
    rw [if_neg hhead, hwalk]
    simp only [Option.bind_some]
    rw [free_node_eq hcleared hsecret]
    refine ⟨_, front ++ (c.1, { c.2 with next := d.2.next }) :: back, rfl, ?_, ?_, rfl, rfl,
      ?_⟩
    · have hunlinked := hlinked.unlink hnodup
        (f := fun before => { before with next := d.2.next }) rfl
      refine h.freed ?_ hunlinked ?_ rfl ?_
      · simp [core]
      · intro a v hne' hlive
        obtain ⟨w, hw, rfl⟩ := (Heap.live_update _ _ _ _ _).mp hlive
        have hold := h.all a w hw
        by_cases hac : a = c.1
        · subst hac
          have hwc : w = c.2 := hw.unique (hlinked.live c (by simp))
          rw [if_pos rfl, hwc]
          simp
        · rw [if_neg hac]
          simp only [List.mem_append, List.mem_cons, List.not_mem_nil, or_false] at hold ⊢
          obtain (hfront | hc) | hd' | hback := hold
          · exact .inl hfront
          · exact absurd (congrArg Prod.fst hc) hac
          · exact absurd (congrArg Prod.fst hd') hne'
          · exact .inr (.inr hback)
      · exact released_secrets_next _ _
    · simp [core]
    · intro hf
      apply Heap.FreedOnce.free _ hcleared
      apply Heap.FreedOnce.update
      exact hf.update _ _

/-! ## Every command -/

/-- The command may set a secret with a value and no key. -/
def Command.NoKey : Command → Prop
  | .add _ .NODE_SECRET ans => Kvaas.NoKey ans
  | .edit _ ans => Kvaas.NoKey ans
  | _ => False

private theorem find_entry (cells : List (Nat × Node)) (name : List UInt8) :
    (cells.map entry).find? (fun e => e.1 == truncated name) =
      (cells.find? fun c => c.2.name == truncated name).map entry := by
  rw [List.find?_map]
  rfl

/-- A command changes the list of entries as the reference does. It has no result only where a
secret is set without a key. -/
theorem step_refines {st : Store} {cells : List (Nat × Node)} (h : Nodes st cells) (c : Command) :
    (step st c = none ∧ c.NoKey) ∨ ∃ st' cells', step st c = some st' ∧ Nodes st' cells' ∧
      cells'.map entry = refer (cells.map entry) c := by
  cases c with
  | add name type ans =>
    have hnodes := h.withNode name type
    have hlive := hnodes.linked.live _ List.mem_cons_self
    rw [step, cmd_add_eq]
    obtain ⟨hnone, hsecret, hkey⟩ | ⟨st', cells', hrun, hcells', hentries⟩ :=
      hnodes.set_func hlive ans
    · refine .inl ⟨hnone, ?_⟩
      rw [freshPayload_type] at hsecret
      subst hsecret
      exact hkey
    · refine .inr ⟨st', cells', hrun, hcells', ?_⟩
      rw [hentries, List.map_cons, refer, entry, freshPayload_type]
  | edit name ans =>
    rw [step, cmd_edit, h.get_node_by_name]
    cases hfind : cells.find? fun c => c.2.name == truncated name with
    | none => exact .inr ⟨st, cells, rfl, h, rfl⟩
    | some d =>
      obtain ⟨hnone, -, hkey⟩ | hsome :=
        h.set_func (h.linked.live d (List.mem_of_find?_eq_some hfind)) ans
      · exact .inl ⟨hnone, hkey⟩
      · exact .inr hsome
  | copy source new =>
    refine .inr ?_
    rw [step, h.cmd_copy, refer, find_entry]
    cases hfind : cells.find? fun c => c.2.name == truncated source with
    | none => exact ⟨st, cells, rfl, h, rfl⟩
    | some d => exact ⟨_, _, rfl, h.withCopy (List.mem_of_find?_eq_some hfind) new, rfl⟩
  | delete name =>
    refine .inr ?_
    rw [step, cmd_delete, h.get_node_by_name, refer, List.eraseP_map]
    cases hfind : cells.find? fun c => c.2.name == truncated name with
    | none =>
      refine ⟨st, cells, rfl, h, ?_⟩
      rw [List.eraseP_of_forall_not]
      exact List.find?_eq_none.mp hfind
    | some d =>
      obtain ⟨hd, front, back, rfl, hfront⟩ := List.find?_eq_some_iff_append.mp hfind
      obtain ⟨st', cells', hrun, hcells', hcore, -⟩ := h.delete_node
      refine ⟨st', cells', hrun, hcells', ?_⟩
      rw [map_entry_of_map_core hcore, List.eraseP_append_right, List.eraseP_cons_of_pos]
      · exact hd
      · intro c hc
        simpa [entry] using hfront c hc

/-! ## Runs -/

theorem run_refines (cmds : List Command) {st st' : Store} {cells : List (Nat × Node)}
    (h : Nodes st cells) (hrun : run step cmds st = some st') :
    ∃ cells', Nodes st' cells' ∧ cells'.map entry = cmds.foldl refer (cells.map entry) := by
  induction cmds generalizing st cells with
  | nil =>
    cases hrun
    exact ⟨cells, h, rfl⟩
  | cons c cmds ih =>
    obtain ⟨st₁, hstep, hrest⟩ := Option.bind_eq_some_iff.mp hrun
    obtain ⟨hnone, -⟩ | ⟨st₂, cells₂, hsome, hnodes, hentries⟩ := step_refines h c
    · rw [hnone] at hstep
      cases hstep
    · rw [hsome] at hstep
      cases hstep
      rw [List.foldl_cons, ← hentries]
      exact ih hnodes hrest

private theorem run_total_of_key (cmds : List Command) (hkeys : ∀ c ∈ cmds, ¬ c.NoKey) {st : Store}
    {cells : List (Nat × Node)} (h : Nodes st cells) : ∃ st', run step cmds st = some st' := by
  induction cmds generalizing st cells with
  | nil => exact ⟨st, rfl⟩
  | cons c cmds ih =>
    rw [List.forall_mem_cons] at hkeys
    obtain ⟨-, hkey⟩ | ⟨st₁, cells₁, hsome, hnodes, -⟩ := step_refines h c
    · exact absurd hkey hkeys.1
    · obtain ⟨st', hst'⟩ := ih hkeys.2 hnodes
      exact ⟨st', by rw [run_cons, hsome, Option.bind_some, hst']⟩

/-- The name that a command looks up. -/
def Command.target : Command → Option (List UInt8)
  | .add _ _ _ => none
  | .edit name _ => some name
  | .copy source _ => some source
  | .delete name => some name

/-- After any commands from the empty store, the nodes from the head on are a list without
repetition whose names and types are those of the reference, and a lookup returns the first node
with the name. A command on a missing name leaves the store as it is. Only a secret set without a
key ends a run. -/
theorem store_refines (cmds : List Command) :
    (∀ st, run step cmds Store.empty = some st →
      ∃ cells, Linked Node.next st.nodes st.node_head cells ∧ (cells.map Prod.fst).Nodup ∧
        cells.map entry = cmds.foldl refer [] ∧
        (∀ name, get_node_by_name st name =
          some ((cells.find? fun c => c.2.name == truncated name).map Prod.fst)) ∧
        ∀ c name, Command.target c = some name → get_node_by_name st name = some none →
          step st c = some st) ∧
    ((∀ c ∈ cmds, ¬ c.NoKey) → ∃ st, run step cmds Store.empty = some st) := by
  constructor
  · intro st hrun
    obtain ⟨cells, hnodes, hentries⟩ := run_refines cmds Nodes.empty hrun
    refine ⟨cells, hnodes.linked, hnodes.nodup, hentries, hnodes.get_node_by_name, ?_⟩
    intro c name htarget hmissing
    cases c with
    | add => cases htarget
    | edit name' ans =>
      cases htarget
      rw [step, cmd_edit, hmissing]
      rfl
    | copy source new =>
      cases htarget
      rw [step, cmd_copy, hmissing]
      rfl
    | delete name' =>
      cases htarget
      rw [step, cmd_delete, hmissing]
      rfl
  · intro hkeys
    exact run_total_of_key cmds hkeys Nodes.empty

end CtfChallenges.Kvaas
