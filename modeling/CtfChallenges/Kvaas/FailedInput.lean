import CtfChallenges.Kvaas.Number
import CtfChallenges.Kvaas.Ownership

/-!
# Failed input in kvaas

The `set_func` of a node with prompts that may meet the end of the input or get a line that is
refused, and what `list` shows before and after. A node is linked and named before its `set_func`
runs.
-/

namespace CtfChallenges.Kvaas
open Framework Framework.Memory CString

/-- What the prompts of a `set_func` return, with none for `NULL`, and the time. -/
structure Prompts where
  first : Option (List UInt8)
  second : Option (List UInt8)
  now : Int
deriving Repr

/-- `set_node_secret` up to its second prompt. -/
def set_secret_key (st : Store) (secret : Nat) (key : List UInt8) : Store :=
  { st with secrets := st.secrets.update secret fun d => { d with key := some (key.take 32) } }

/-- `set_node_secret` from its second prompt on. -/
def set_secret_value (st : Store) (secret : Nat) (key value : List UInt8) : Option Store := do
  let data ← encrypt_secret_data (key.take 32) value
  return { st with
    strings := st.strings.malloc data
    secrets := st.secrets.update secret fun d =>
      { d with pt_len := some value.length, data := some st.strings.next } }

/-- The `set_func` of a node. The number readers crash on `NULL`. -/
def set_func_prompted (st : Store) (n errno : Nat) (prompts : Prompts) : Option Store := do
  let node ← st.nodes.load n
  match node.payload with
  | .uint val => do
    let buf ← prompts.first
    return set_payload st n (.uint ((set_node_uint errno buf).1 <|> val))
  | .int val => do
    let buf ← prompts.first
    return set_payload st n (.int ((set_node_int errno buf).1 <|> val))
  | .str _ =>
    match prompts.first with
    | none => return st
    | some buf => return set_node_str st n buf
  | .time _ => return set_payload st n (.time (some prompts.now))
  | .secret secret =>
    match prompts.first, prompts.second with
    | none, _ => return st
    | some key, none => return set_secret_key st secret key
    | some key, some value => set_secret_value (set_secret_key st secret key) secret key value

inductive Setting
  | add (name : List UInt8) (type : node_type)
  | edit (name : List UInt8)

/-- `cmd_add` and `cmd_edit`. -/
def Setting.run (st : Store) (errno : Nat) (prompts : Prompts) : Setting → Option Store
  | .add name type =>
    let (st, n) := add_node st type
    set_func_prompted (set_node_name st n name) n errno prompts
  | .edit name => do
    match ← get_node_by_name st name with
    | none => return st
    | some n => set_func_prompted st n errno prompts

/-- The value of an entry with what its blocks hold, also after they have been freed. -/
def held (st : Store) : Payload → Value
  | .uint val => .number val
  | .int val => .number val
  | .str val => .text (val.bind st.strings.load)
  | .time when => .time when
  | .secret secret =>
    let d := st.secrets.load secret
    .secret (d.bind SecretData.key) (d.bind SecretData.pt_len)
      ((d.bind SecretData.data).bind st.strings.load)

/-- The names and values of the entries, in the order of `cmd_list`. -/
def entries (st : Store) : Option (List (List UInt8 × Value)) := do
  let nodes ← collect Node.next st.nodes st.fuel st.node_head
  return nodes.map fun node => (node.name, held st node.payload)

/-- The type of the node that is set. -/
def Setting.type (st : Store) : Setting → Option node_type
  | .add _ type => some type
  | .edit name => do
    let n ← ← get_node_by_name st name
    let node ← st.nodes.load n
    return node.payload.type

/-- A number prompt refuses its line, or a prompt for a string or a secret meets the end of the
input. -/
def Refused (errno : Nat) (prompts : Prompts) : node_type → Prop
  | .NODE_UINT => ∃ buf, prompts.first = some buf ∧ (set_node_uint errno buf).1 = none
  | .NODE_INT => ∃ buf, prompts.first = some buf ∧ (set_node_int errno buf).1 = none
  | .NODE_STR => prompts.first = none
  | .NODE_TIME => False
  | .NODE_SECRET => prompts.first = none ∨ prompts.second = none

/-- The command returns, and the store is as it was. -/
def LeavesStore (st : Store) (errno : Nat) (prompts : Prompts) (c : Setting) : Prop :=
  c.run st errno prompts = some st

/-- The command returns, and what the entries of the list show is not what they did. -/
def ChangesList (st : Store) (errno : Nat) (prompts : Prompts) (c : Setting) : Prop :=
  ∃ st', c.run st errno prompts = some st' ∧ entries st' ≠ entries st

/-- An edit of a secret does not get to a new key: its key prompt fails, or the key is the old one. -/
def KeepsKey (st : Store) (prompts : Prompts) (name : List UInt8) : Prop :=
  ∀ n node secret d key, get_node_by_name st name = some (some n) → st.nodes.load n = some node →
    node.payload = .secret secret → st.secrets.load secret = some d → prompts.first = some key →
    d.key = some (key.take 32)

def Setting.Safe (st : Store) (prompts : Prompts) : Setting → Prop
  | .add _ _ => False
  | .edit name => KeepsKey st prompts name

variable {st st' : Store} {cells : List (Nat × Node)} {errno : Nat} {prompts : Prompts}

/-- With an answer to every prompt, the two halves of `set_node_secret` are the whole. -/
theorem set_secret_eq (st : Store) (secret : Nat) (key value : List UInt8) :
    set_secret_value (set_secret_key st secret key) secret key value =
      set_node_secret st secret key value := by
  simp only [set_secret_value, set_secret_key, set_node_secret, Heap.update_update]

/-- With an answer to every prompt, this is the `set_func` of the store. -/
theorem set_func_prompted_eq (st : Store) (n errno : Nat) (lines : Lines) {node : Node}
    (hnode : st.nodes.load n = some node) :
    set_func_prompted st n errno ⟨some (answer lines.first), some (answer lines.second), lines.now⟩ =
      set_func st n (lines.answers errno node.payload.type) := by
  simp only [set_func_prompted, set_func, hnode, Option.bind_eq_bind, Option.bind_some]
  cases node.payload with
  | uint val => rfl
  | int val => rfl
  | str val => rfl
  | time when => rfl
  | secret secret => exact set_secret_eq st secret _ _

theorem set_payload_self {n : Nat} {node : Node} (hnode : st.nodes.load n = some node) :
    set_payload st n node.payload = st := by
  rw [set_payload, Heap.update_eq_self]
  intro v hv
  rw [hnode] at hv
  cases hv
  rfl

/-- A refused value changes nothing, except for the key of a secret whose value does not follow. -/
theorem set_func_refused {n : Nat} {node : Node} (hnode : st.nodes.load n = some node)
    (hrefused : Refused errno prompts node.payload.type) :
    (set_func_prompted st n errno prompts = some st ∧
      ∀ secret, node.payload = .secret secret → prompts.first = none) ∨
    ∃ secret key, node.payload = .secret secret ∧ prompts.first = some key ∧
      set_func_prompted st n errno prompts = some (set_secret_key st secret key) := by
  have hself := set_payload_self hnode
  simp only [set_func_prompted, hnode, Option.bind_eq_bind, Option.bind_some]
  cases hpayload : node.payload with
  | uint val =>
    rw [hpayload] at hrefused hself
    obtain ⟨buf, hbuf, hnone⟩ := hrefused
    simp [hbuf, hnone, hself]
  | int val =>
    rw [hpayload] at hrefused hself
    obtain ⟨buf, hbuf, hnone⟩ := hrefused
    simp [hbuf, hnone, hself]
  | str val =>
    rw [hpayload] at hrefused
    have hnull : prompts.first = none := hrefused
    simp [hnull]
  | time when =>
    rw [hpayload] at hrefused
    exact hrefused.elim
  | secret secret =>
    rw [hpayload] at hrefused
    cases hfirst : prompts.first with
    | none => simp
    | some key =>
      have hsecond : prompts.second = none := by
        rcases hrefused with h | h
        · rw [hfirst] at h
          cases h
        · exact h
      simp [hsecond]

theorem entries_eq (h : Nodes st cells) :
    entries st = some (cells.map fun c => (c.2.name, held st c.2.payload)) := by
  simp [entries, collect_spec h.linked h.length_lt, List.map_map, Function.comp_def]

theorem Nodes.set_secret_key (h : Nodes st cells) (secret : Nat) (key : List UInt8) :
    Nodes (Kvaas.set_secret_key st secret key) cells := by
  have hnext : st.secrets.next ≤ (Kvaas.set_secret_key st secret key).secrets.next := by
    rw [Kvaas.set_secret_key, Heap.next_update]
  exact h.congr rfl rfl hnext

/-- A new key is seen in the entry unless it is the old one. -/
theorem entries_set_secret_key (h : Nodes st cells) {c : Nat × Node} (hc : c ∈ cells) {secret : Nat}
    (hpayload : c.2.payload = .secret secret) {d : SecretData}
    (hd : st.secrets.load secret = some d) {key : List UInt8} (hkey : d.key ≠ some (key.take 32)) :
    entries (set_secret_key st secret key) ≠ entries st := by
  intro hsame
  rw [entries_eq h, entries_eq (h.set_secret_key secret key), Option.some.injEq,
    List.map_inj_left] at hsame
  have hheld := congrArg Prod.snd (hsame c hc)
  simp only [hpayload, held, set_secret_key, Heap.load_update, hd, Option.map_some,
    Option.bind_some, Value.secret.injEq] at hheld
  exact hkey hheld.1.symm

theorem set_secret_key_eq_self {secret : Nat} {key : List UInt8} :
    set_secret_key st secret key = st ↔
      ∀ d, st.secrets.load secret = some d → d.key = some (key.take 32) := by
  constructor
  · intro hsame d hd
    have hload : (set_secret_key st secret key).secrets.load secret = st.secrets.load secret := by
      rw [hsame]
    simp only [set_secret_key, Heap.load_update, hd, Option.map_some, Option.some.injEq] at hload
    rw [← hload]
  · intro hkey
    rw [set_secret_key, Heap.update_eq_self]
    intro d hd
    rw [← hkey d hd]

/-- A refused `add` leaves its node in front of the list. -/
theorem add_refused (st : Store) (name : List UInt8) {type : node_type}
    (hrefused : Refused errno prompts type) :
    ∃ st', (Setting.add name type).run st errno prompts = some st' ∧
      st'.nodes = (withNode st name type).nodes ∧
      ∀ cells, Nodes (withNode st name type) cells → Nodes st' cells := by
  have hrun : (Setting.add name type).run st errno prompts =
      set_func_prompted (withNode st name type) st.nodes.next errno prompts := by
    rw [← set_node_name_add_node, ← add_node_snd st type]
    rfl
  have hnode : (withNode st name type).nodes.load st.nodes.next =
      some ⟨truncated name, freshPayload st type, st.node_head⟩ :=
    (Heap.live_malloc_next _ _).load
  have htype := freshPayload_type st type
  rw [hrun]
  rw [← htype] at hrefused
  rcases set_func_refused hnode hrefused with
    ⟨hself, -⟩ | ⟨secret, key, -, -, hkey⟩
  · exact ⟨_, hself, rfl, fun cells h => h⟩
  · exact ⟨_, hkey, rfl, fun cells h => h.set_secret_key secret key⟩

theorem type_edit (name : List UInt8) {type : node_type}
    (htype : (Setting.edit name).type st = some type) :
    ∃ n node, get_node_by_name st name = some (some n) ∧ st.nodes.load n = some node ∧
      node.payload.type = type := by
  simpa [Setting.type, Option.bind_eq_some_iff] using htype

theorem Nodes.mem_of_load (h : Nodes st cells) {name : List UInt8} {n : Nat} {node : Node}
    (hfound : Kvaas.get_node_by_name st name = some (some n))
    (hnode : st.nodes.load n = some node) : ∃ c ∈ cells, c.2 = node := by
  rw [h.get_node_by_name, Option.some.injEq, Option.map_eq_some_iff] at hfound
  obtain ⟨c, hfind, rfl⟩ := hfound
  have hc := List.mem_of_find?_eq_some hfind
  refine ⟨c, hc, ?_⟩
  rw [(h.linked.live c hc).load] at hnode
  exact Option.some.inj hnode

theorem keepsKey_iff {name : List UInt8} {n : Nat} {node : Node}
    (hfound : get_node_by_name st name = some (some n)) (hnode : st.nodes.load n = some node) :
    KeepsKey st prompts name ↔ ∀ secret key, node.payload = .secret secret →
      prompts.first = some key → set_secret_key st secret key = st := by
  simp only [set_secret_key_eq_self]
  constructor
  · intro h secret key hpayload hfirst d hd
    exact h n node secret d key hfound hnode hpayload hd hfirst
  · intro h n' node' secret d key hfound' hnode' hpayload hd hfirst
    rw [hfound] at hfound'
    cases hfound'
    rw [hnode] at hnode'
    cases hnode'
    exact h secret key hpayload hfirst d hd

/-- When a value is refused, an edit that does not get to a new key leaves the store as it was.
Nothing else does: the list has a new key or a new entry. -/
theorem failed_input_iff (st : Store) (errno : Nat) (prompts : Prompts) (c : Setting)
    (type : node_type) (htype : c.type st = some type) (hrefused : Refused errno prompts type) :
    (LeavesStore st errno prompts c ↔ c.Safe st prompts) ∧
    (¬c.Safe st prompts → ∀ cells, Nodes st cells → ChangesList st errno prompts c) := by
  cases c with
  | add name =>
    cases htype
    obtain ⟨st', hrun, hnodes, hlist⟩ := add_refused st name hrefused
    constructor
    · rw [LeavesStore, hrun, Option.some.injEq]
      constructor
      · intro hsame
        have hnext := congrArg Heap.next hnodes
        rw [hsame, withNode, Heap.next_malloc] at hnext
        exact absurd hnext (Nat.succ_ne_self _).symm
      · exact False.elim
    · intro _ cells h
      have h' := hlist _ (h.withNode name type)
      refine ⟨st', hrun, ?_⟩
      rw [entries_eq h, entries_eq h']
      intro heq
      simpa using congrArg List.length (Option.some.inj heq)
  | edit name =>
    obtain ⟨n, node, hfound, hnode, rfl⟩ := type_edit name htype
    have hrun : (Setting.edit name).run st errno prompts = set_func_prompted st n errno prompts := by
      simp [Setting.run, hfound]
    rw [LeavesStore, ChangesList, Setting.Safe, hrun, keepsKey_iff hfound hnode]
    rcases set_func_refused hnode hrefused with ⟨hself, hnull⟩ | ⟨secret, key, hpayload, hfirst, hkey⟩
    · have hsafe : ∀ secret key, node.payload = .secret secret → prompts.first = some key →
          set_secret_key st secret key = st := by
        intro secret key hpayload hfirst
        rw [hnull secret hpayload] at hfirst
        cases hfirst
      exact ⟨⟨fun _ => hsafe, fun _ => hself⟩, fun hnot => absurd hsafe hnot⟩
    · have hsafe : (∀ secret key, node.payload = .secret secret → prompts.first = some key →
          set_secret_key st secret key = st) ↔ set_secret_key st secret key = st := by
        simp [hpayload, hfirst]
      rw [hsafe, hkey, Option.some.injEq]
      refine ⟨Iff.rfl, ?_⟩
      intro hchanged cells h
      obtain ⟨c, hc, rfl⟩ := h.mem_of_load hfound hnode
      rw [set_secret_key_eq_self] at hchanged
      push Not at hchanged
      obtain ⟨d, hd, hdiffers⟩ := hchanged
      exact ⟨_, rfl, entries_set_secret_key h hc hpayload hd hdiffers⟩

/-- An entry with a secret. -/
def oneSecret : Store where
  node_head := some 0
  nodes := ⟨[⟨⟨ascii "a", .secret 0, none⟩, 0⟩]⟩
  strings := ⟨[⟨[0x1d], 0⟩]⟩
  secrets := ⟨[⟨⟨some (ascii "k"), some 1, some 0⟩, 0⟩]⟩

theorem Nodes.oneSecret : Nodes oneSecret [(0, ⟨ascii "a", .secret 0, none⟩)] := by
  constructor
  · exact ⟨rfl, rfl, rfl⟩
  · decide
  · intro a v hv
    match a, hv with
    | 0, hv => cases hv; simp
  · decide
  · intro c hc a ha
    cases List.mem_singleton.mp hc
    cases ha
    decide

/-- The value prompt of a secret meets the end of the input after the old key, and after another. -/
theorem failed_input_iff_secret :
    LeavesStore oneSecret 0 ⟨some (ascii "k"), none, 0⟩ (.edit (ascii "a")) ∧
      ChangesList oneSecret 0 ⟨some (ascii "l"), none, 0⟩ (.edit (ascii "a")) := by
  constructor
  · apply (failed_input_iff oneSecret 0 ⟨some (ascii "k"), none, 0⟩ (.edit (ascii "a"))
      .NODE_SECRET rfl (.inr rfl)).1.mpr
    rw [Setting.Safe, keepsKey_iff rfl rfl]
    intro secret key hpayload hfirst
    cases hpayload
    cases hfirst
    decide
  · refine (failed_input_iff oneSecret 0 ⟨some (ascii "l"), none, 0⟩ (.edit (ascii "a"))
      .NODE_SECRET rfl (.inr rfl)).2 ?_ _ Nodes.oneSecret
    rw [Setting.Safe, keepsKey_iff rfl rfl]
    intro hkept
    exact absurd (hkept 0 (ascii "l") rfl rfl) (by decide)

/-- A number that is no number: the new entry is in the list without a value. -/
theorem refused_entry_is_listed :
    let prompts : Prompts := ⟨some (ascii "x"), none, 0⟩
    let c : Setting := .add (ascii "a") .NODE_UINT
    Refused 0 prompts .NODE_UINT ∧ ¬LeavesStore Store.empty 0 prompts c ∧
      entries Store.empty = some [] ∧
      (c.run Store.empty 0 prompts).bind entries = some [(ascii "a", .number none)] := by
  refine ⟨⟨ascii "x", rfl, rfl⟩, ?_, rfl, rfl⟩
  rw [LeavesStore]
  decide

end CtfChallenges.Kvaas
