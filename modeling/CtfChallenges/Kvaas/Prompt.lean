import CtfChallenges.Framework.LineInput
import CtfChallenges.Kvaas.FailedInput

/-!
# The prompts of kvaas

`prompt_user`, `prompt_user_key` and the commands of `main.c`, cut at their prompts, and the lines that
the prompts get from one input.
-/

namespace CtfChallenges.Kvaas
open Framework Framework.Memory CString LineInput

def INP_BUF_SIZE : Nat := 4096

/-- `prompt_user` and `prompt_user_key`. -/
inductive Prompt
  | user
  | key
deriving DecidableEq, Repr

/-- The sizes of `_inp_buf` and `_key_buf`. -/
def Prompt.size : Prompt → Nat
  | user => INP_BUF_SIZE
  | key => NODE_NAME_SZ + 1

/-- Where the program waits for a line, with the variables that it still needs. -/
inductive Control
  | command
  | add_name
  | add_type (name : List UInt8)
  | edit_name
  | delete_name
  | copy_source
  | copy_new (n : Nat)
  | set_value (n : Nat)
  | set_key (secret : Nat)
  | set_secret (secret : Nat) (key : List UInt8)
  | exited
deriving DecidableEq, Repr

/-- `clock` has the results of the next calls of `time`. -/
structure Session where
  control : Control
  store : Store
  errno : Nat
  clock : Nat → Int

/-- A process that waits for a command. -/
def Session.waiting (p : Process) (clock : Nat → Int) : Session :=
  ⟨.command, p.store, p.errno, clock⟩

def commands : List (List UInt8 × Control) :=
  [(ascii "add", .add_name), (ascii "list", .command), (ascii "edit", .edit_name),
    (ascii "delete", .delete_name), (ascii "copy", .copy_source), (ascii "help", .command),
    (ascii "exit", .exited)]

def node_type_names : List (List UInt8 × node_type) :=
  [(ascii "uint", .NODE_UINT), (ascii "int", .NODE_INT), (ascii "str", .NODE_STR),
    (ascii "time", .NODE_TIME), (ascii "sec", .NODE_SECRET)]

def Control.prompt : Control → Option Prompt
  | command => some .user
  | add_name => some .key
  | add_type _ => some .user
  | edit_name => some .key
  | delete_name => some .key
  | copy_source => some .key
  | copy_new _ => some .key
  | set_value _ => some .user
  | set_key _ => some .user
  | set_secret _ _ => some .user
  | exited => none

/-- The `set_func` of a node up to its first prompt. -/
def Session.begin_set (s : Session) (n : Nat) : Option Session := do
  let node ← s.store.nodes.load n
  match node.payload with
  | .uint _ => return { s with control := .set_value n }
  | .int _ => return { s with control := .set_value n }
  | .str _ => return { s with control := .set_value n }
  | .time _ =>
    let store ← set_func s.store n ⟨none, [], [], s.clock 0⟩
    return { s with control := .command, store := store, clock := fun k => s.clock (k + 1) }
  | .secret secret => return { s with control := .set_key secret }

/-- From one prompt, which returns `buf`, to the next. -/
def Session.answered (s : Session) (buf : List UInt8) : Option Session :=
  match s.control with
  -- The empty string and a name that is not found both lead to the next command.
  | .command => return { s with control := (commands.lookup buf).getD .command }
  | .add_name => return { s with control := .add_type buf }
  | .add_type name =>
    match node_type_names.lookup buf with
    | none => return s
    | some type =>
      let (st, n) := add_node s.store type
      { s with store := set_node_name st n name }.begin_set n
  | .edit_name => do
    match ← get_node_by_name s.store buf with
    | none => return { s with control := .command }
    | some n => s.begin_set n
  | .delete_name => do
    let store ← cmd_delete s.store buf
    return { s with control := .command, store := store }
  | .copy_source => do
    match ← get_node_by_name s.store buf with
    | none => return { s with control := .command }
    | some n => return { s with control := .copy_new n }
  | .copy_new n => do
    let node ← s.store.nodes.load n
    let new_node := s.store.nodes.next
    let st := { s.store with nodes := s.store.nodes.malloc node }
    let st := insert_node (set_node_name st new_node buf) new_node
    return { s with control := .command, store := st }
  | .set_value n => do
    let node ← s.store.nodes.load n
    let (num, errno) := enter s.errno node.payload.type buf
    let store ← set_func s.store n ⟨num, buf, [], 0⟩
    return { s with control := .command, store := store, errno := errno }
  | .set_key secret =>
    return { s with
      control := .set_secret secret buf
      store := set_secret_key s.store secret buf }
  | .set_secret secret key => do
    let store ← set_secret_value s.store secret key buf
    return { s with control := .command, store := store }
  | .exited => none

def main : Program Session Prompt where
  prompt s := s.control.prompt
  size := Prompt.size
  resume s line := s.answered (answer line)

/-- The line of a key has fewer than `NODE_NAME_SZ` characters, any other line fewer than
`INP_BUF_SIZE - 1`. -/
def HasRoom (a : Asked Prompt) : Prop :=
  match a.prompt with
  | .key => a.line.text.length < NODE_NAME_SZ
  | .user => a.line.text.length < INP_BUF_SIZE - 1

/-- The lines that the `set_func` of a type asks for. -/
def node_type.asks (lines : Lines) : node_type → List (List UInt8)
  | .NODE_TIME => []
  | .NODE_SECRET => [lines.first, lines.second]
  | _ => [lines.first]

/-- The clock after a `set_func` for a type. -/
def node_type.tick (clock : Nat → Int) : node_type → Nat → Int
  | .NODE_TIME => fun k => clock (k + 1)
  | _ => clock

variable {s : Session} {p : Process} {clock : Nat → Int} {n : Nat} {node : Node} {lines : Lines}
  {type : node_type} {cmd key typed : List UInt8}

@[simp] theorem main_resume (s : Session) (line : List UInt8) :
    main.resume s line = s.answered (answer line) := rfl

/-- Prompt by prompt, a `set_func` does what it does with all lines at once. -/
theorem begin_set_spec (hnode : s.store.nodes.load n = some node) (hnow : lines.now = s.clock 0) :
    (s.begin_set n).bind (run main.resume (node.payload.type.asks lines)) =
      (set_func s.store n (lines.answers s.errno node.payload.type)).map fun st =>
        .waiting ⟨st, (enter s.errno node.payload.type (answer lines.first)).2⟩
          (node.payload.type.tick s.clock) := by
  simp only [Session.begin_set, set_func, hnode, Option.bind_eq_bind, Option.bind_some]
  cases hpayload : node.payload with
  | uint val => simp [Payload.type, node_type.asks, Session.answered, hnode, hpayload, set_func,
      node_type.tick, Lines.answers, Session.waiting]
  | int val => simp [Payload.type, node_type.asks, Session.answered, hnode, hpayload, set_func,
      node_type.tick, Lines.answers, Session.waiting]
  | str val => simp [Payload.type, node_type.asks, Session.answered, hnode, hpayload, set_func,
      node_type.tick, Lines.answers, Session.waiting]
  | time when => simp [Payload.type, node_type.asks, node_type.tick, Lines.answers, hnow, enter,
      Session.waiting]
  | secret secret =>
    simp only [Payload.type, node_type.asks, Session.answered, run_cons, run_nil, main_resume,
      node_type.tick, Lines.answers, enter, ← set_secret_eq, Session.waiting, Option.bind_eq_bind,
      Option.bind_some, Option.map_eq_bind, Option.bind_assoc, pure]
    rfl

/-- The line of a command leads to its first prompt. -/
theorem answered_command {name : List UInt8} {c : Control} (hcmd : answer cmd = name)
    (hfind : commands.lookup name = some c) (p : Process) (clock : Nat → Int) :
    (Session.waiting p clock).answered (answer cmd) =
      some ⟨c, p.store, p.errno, clock⟩ := by
  simp [Session.waiting, Session.answered, hcmd, hfind]

theorem add_spec (hcmd : answer cmd = ascii "add")
    (htype : node_type_names.lookup (answer typed) = some type) (hnow : lines.now = clock 0) :
    run main.resume (cmd :: key :: typed :: type.asks lines) (.waiting p clock) =
      (p.step (.add (answer key) type lines)).map fun p => .waiting p (type.tick clock) := by
  have hnode : (withNode p.store (answer key) type).nodes.load p.store.nodes.next =
      some ⟨truncated (answer key), freshPayload p.store type, p.store.node_head⟩ :=
    (Heap.live_malloc_next _ _).load
  have hadded : (Session.mk (.add_type (answer key)) p.store p.errno clock).answered (answer typed) =
      (Session.mk (.add_type (answer key)) (withNode p.store (answer key) type) p.errno
        clock).begin_set p.store.nodes.next := by
    simp only [Session.answered, htype]
    rw [← set_node_name_add_node, ← add_node_snd p.store type]
  have hset := begin_set_spec (s := ⟨.add_type (answer key), withNode p.store (answer key) type,
    p.errno, clock⟩) hnode hnow
  rw [freshPayload_type] at hset
  have hnamed : (Session.mk .add_name p.store p.errno clock).answered (answer key) =
      some ⟨.add_type (answer key), p.store, p.errno, clock⟩ := rfl
  rw [run_cons, main_resume, answered_command hcmd (c := .add_name) rfl, Option.bind_some,
    run_cons, main_resume, hnamed, Option.bind_some, run_cons, main_resume, hadded, hset]
  cases hrun : set_func (withNode p.store (answer key) type) p.store.nodes.next
      (lines.answers p.errno type) <;>
    simp [Process.step, Process.sets, Input.command, step, cmd_add_eq, Input.lines, hrun]

theorem edit_spec (hcmd : answer cmd = ascii "edit")
    (htype : p.sets (.edit (answer key) lines) = some type) (hnow : lines.now = clock 0) :
    run main.resume (cmd :: key :: type.asks lines) (.waiting p clock) =
      (p.step (.edit (answer key) lines)).map fun p => .waiting p (type.tick clock) := by
  obtain ⟨n, node, hfound, hnode, rfl⟩ := type_edit (answer key) htype
  have hfinds : (Session.mk .edit_name p.store p.errno clock).answered (answer key) =
      (Session.mk .edit_name p.store p.errno clock).begin_set n := by
    simp [Session.answered, hfound]
  rw [run_cons, main_resume, answered_command hcmd (c := .edit_name) rfl, Option.bind_some,
    run_cons, main_resume, hfinds, begin_set_spec hnode hnow]
  cases hrun : set_func p.store n (lines.answers p.errno node.payload.type) <;>
    simp [Process.step, htype, Input.command, step, cmd_edit, hfound, Input.lines, hrun]

theorem copy_spec (hcmd : answer cmd = ascii "copy") {source new : List UInt8}
    (hfound : get_node_by_name p.store (answer source) = some (some n)) :
    run main.resume [cmd, source, new] (.waiting p clock) =
      (p.step (.copy (answer source) (answer new))).map fun p => .waiting p clock := by
  rw [run_cons, main_resume, answered_command hcmd (c := .copy_source) rfl]
  cases hnode : p.store.nodes.load n <;>
    simp [Session.answered, hfound, hnode, Process.step, Input.command, step, cmd_copy,
      Process.sets, Session.waiting, enter]

theorem delete_spec (hcmd : answer cmd = ascii "delete") :
    run main.resume [cmd, key] (.waiting p clock) =
      (p.step (.delete (answer key))).map fun p => .waiting p clock := by
  rw [run_cons, main_resume, answered_command hcmd (c := .delete_name) rfl]
  cases hdelete : cmd_delete p.store (answer key) <;>
    simp [Session.answered, hdelete, Process.step, Input.command, step, Process.sets,
      Session.waiting, enter]

theorem fits_iff (a : Asked Prompt) : main.Fits a ↔ HasRoom a := by
  obtain ⟨prompt, line, after⟩ := a
  cases prompt with
  | user =>
    simp only [Program.Fits, main, Prompt.size, HasRoom, Line.bytes, List.length_append,
      List.length_singleton]
    omega
  | key =>
    simp only [Program.Fits, main, Prompt.size, HasRoom, Line.bytes, List.length_append,
      List.length_singleton]
    omega

/-- From any state of the program, the prompts get the lines of the input one by one exactly when each
line has room: 30 characters for a key. -/
theorem prompts_aligned_iff (s : Session) (lines : List Line) :
    main.Aligned s lines ↔ ∀ a ∈ main.asked s lines, HasRoom a := by
  have hsize : ∀ p, 0 < main.size p := by
    intro p
    cases p <;> decide
  rw [main.aligned_iff hsize]
  simp only [fits_iff]

/-- `add` and `edit` of a key with 31 characters. -/
def longKey : List Line :=
  [⟨ascii "add", by decide⟩, ⟨ascii "0123456789abcdefghijklmnopqrstu", by decide⟩,
    ⟨ascii "uint", by decide⟩, ⟨ascii "7", by decide⟩, ⟨ascii "edit", by decide⟩,
    ⟨ascii "0123456789abcdefghijklmnopqrstu", by decide⟩, ⟨ascii "8", by decide⟩]

/-- The value of the first node after the prompts have got these lines. -/
def valueAfter (read : List (List UInt8)) : Option Payload := do
  let s ← run main.resume read (.waiting .initial fun _ => 0)
  let node ← s.store.nodes.load 0
  return node.payload

/-- The lines are within the sizes. By lines the edit stores 8; as the input is read, it gets the
newline of the key and stores 0. -/
theorem long_key_stores_zero :
    let start : Session := .waiting .initial fun _ => 0
    (∀ a ∈ main.asked start longKey, (a.prompt = .key → a.line.text.length ≤ NODE_NAME_SZ) ∧
      (a.prompt = .user → a.line.text.length < INP_BUF_SIZE - 1)) ∧
    ¬main.Aligned start longKey ∧
    valueAfter (longKey.map Line.bytes) = some (.uint (some 8)) ∧
    valueAfter ((main.calls (stdin longKey).length start (stdin longKey)).map Call.bytes) =
      some (.uint (some 0)) := by
  refine ⟨?_, ?_, ?_, ?_⟩
  · decide +kernel
  · unfold Program.Aligned
    decide +kernel
  · decide +kernel
  · decide +kernel

end CtfChallenges.Kvaas
