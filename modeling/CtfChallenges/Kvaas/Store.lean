import CtfChallenges.Framework.Memory

/-!
# The key-value store of kvaas

`nodes.c` and the commands of `main.c`. A string is the list of its characters before the
terminator, and what `malloc` leaves in a block is `none`. The result `none` of a function is a
crash. Commands come with the lines that their prompts read: where a prompt meets the end of the
input, the next prompt for a command ends the program.
-/

namespace CtfChallenges.Kvaas
open Framework.Memory

def NODE_NAME_SZ : Nat := 31

inductive node_type
  | NODE_UINT | NODE_INT | NODE_STR | NODE_TIME | NODE_SECRET
deriving DecidableEq, Repr

/-- What a node holds after the fields that all nodes have. -/
inductive Payload
  | uint (val : Option (BitVec 64))
  | int (val : Option (BitVec 64))
  | str (val : Option Nat)
  | time (when : Option Int)
  | secret (secret : Nat)
deriving DecidableEq, Repr

def Payload.type : Payload → node_type
  | uint _ => .NODE_UINT
  | int _ => .NODE_INT
  | str _ => .NODE_STR
  | time _ => .NODE_TIME
  | secret _ => .NODE_SECRET

/-- The two functions of a node go with its type. -/
structure Node where
  name : List UInt8
  payload : Payload
  next : Option Nat
deriving DecidableEq, Repr

structure SecretData where
  key : Option (List UInt8)
  pt_len : Option Nat
  data : Option Nat
deriving DecidableEq, Repr

/-- `node_head` and the blocks of memory. -/
structure Store where
  node_head : Option Nat
  nodes : Heap Node
  strings : Heap (List UInt8)
  secrets : Heap SecretData
deriving DecidableEq, Repr

def Store.empty : Store := ⟨none, .empty, .empty, .empty⟩

/-- No list of distinct nodes is longer. -/
def Store.fuel (st : Store) : Nat := st.nodes.next + 1

/-- A fresh node; its name and its link are written before anything reads them. -/
def alloc_node (st : Store) (t : node_type) : Store × Nat :=
  let node (payload : Payload) : Node := { name := [], payload := payload, next := none }
  match t with
  | .NODE_UINT => ({ st with nodes := st.nodes.malloc (node (.uint none)) }, st.nodes.next)
  | .NODE_INT => ({ st with nodes := st.nodes.malloc (node (.int none)) }, st.nodes.next)
  | .NODE_STR => ({ st with nodes := st.nodes.malloc (node (.str none)) }, st.nodes.next)
  | .NODE_TIME => ({ st with nodes := st.nodes.malloc (node (.time none)) }, st.nodes.next)
  | .NODE_SECRET =>
    ({ st with
        nodes := st.nodes.malloc (node (.secret st.secrets.next))
        secrets := st.secrets.malloc ⟨none, none, none⟩ }, st.nodes.next)

def insert_node (st : Store) (n : Nat) : Store :=
  { st with
    nodes := st.nodes.update n fun node => { node with next := st.node_head }
    node_head := some n }

def add_node (st : Store) (t : node_type) : Store × Nat :=
  let (st, n) := alloc_node st t
  (insert_node st n, n)

/-- `free` of a pointer that may not have been written. -/
def freePointer (h : Heap (List UInt8)) : Option Nat → Heap (List UInt8)
  | none => h
  | some a => h.free a

def free_node (st : Store) (n : Nat) : Option Store := do
  let node ← st.nodes.load n
  let st ← match node.payload with
    | .str val => some { st with strings := freePointer st.strings val }
    | .secret secret => do
      let d ← st.secrets.load secret
      some { st with strings := freePointer st.strings d.data, secrets := st.secrets.free secret }
    | _ => some st
  return { st with nodes := st.nodes.free n }

def clear_next (st : Store) (n : Nat) : Store :=
  { st with nodes := st.nodes.update n fun node => { node with next := none } }

def delete_node (st : Store) (n : Nat) : Option Store := do
  let node ← st.nodes.load n
  if st.node_head = some n then
    free_node (clear_next { st with node_head := node.next } n) n
  else
    match ← walk Node.next st.nodes (fun p => p.next == some n) st.fuel st.node_head with
    | some p =>
      let nodes := st.nodes.update p fun before => { before with next := node.next }
      free_node (clear_next { st with nodes := nodes } n) n
    | none => return st

/-- `!strncmp(name, node_name, NODE_NAME_SZ)`. -/
def sameName (name node_name : List UInt8) : Bool :=
  name.take NODE_NAME_SZ == node_name.take NODE_NAME_SZ

def get_node_by_name (st : Store) (name : List UInt8) : Option (Option Nat) :=
  walk Node.next st.nodes (fun p => sameName name p.name) st.fuel st.node_head

def set_node_name (st : Store) (n : Nat) (name : List UInt8) : Store :=
  { st with nodes := st.nodes.update n fun node => { node with name := name.take NODE_NAME_SZ } }

def set_payload (st : Store) (n : Nat) (payload : Payload) : Store :=
  { st with nodes := st.nodes.update n fun node => { node with payload := payload } }

/-- What the prompts of a `set_func` read: the number that `strtoul` or `strtol` makes of the first
line unless it is refused, the first and the second line, and the time. -/
structure Answers where
  num : Option (BitVec 64)
  first : List UInt8
  second : List UInt8
  now : Int
deriving Repr

/-- `value` in place of its encryption. A value and no key divide by zero. -/
def encrypt_secret_data (key value : List UInt8) : Option (List UInt8) :=
  if key.length = 0 ∧ value.length ≠ 0 then none
  else some (value.mapIdx fun i c => c ^^^ key.getD (i % key.length) 0)

def set_node_str (st : Store) (n : Nat) (buf : List UInt8) : Store :=
  set_payload { st with strings := st.strings.malloc buf } n (.str (some st.strings.next))

def set_node_secret (st : Store) (secret : Nat) (key value : List UInt8) : Option Store := do
  let key := key.take 32
  let data ← encrypt_secret_data key value
  return { st with
    strings := st.strings.malloc data
    secrets := st.secrets.update secret fun _ =>
      { key := some key, pt_len := some value.length, data := some st.strings.next } }

/-- The `set_func` of a node. -/
def set_func (st : Store) (n : Nat) (ans : Answers) : Option Store := do
  let node ← st.nodes.load n
  match node.payload with
  | .uint val => return set_payload st n (.uint (ans.num <|> val))
  | .int val => return set_payload st n (.int (ans.num <|> val))
  | .str _ => return set_node_str st n ans.first
  | .time _ => return set_payload st n (.time (some ans.now))
  | .secret secret => set_node_secret st secret ans.first ans.second

inductive Command
  | add (name : List UInt8) (type : node_type) (ans : Answers)
  | edit (name : List UInt8) (ans : Answers)
  | copy (source new : List UInt8)
  | delete (name : List UInt8)
deriving Repr

def cmd_add (st : Store) (name : List UInt8) (type : node_type) (ans : Answers) : Option Store :=
  let (st, n) := add_node st type
  set_func (set_node_name st n name) n ans

def cmd_edit (st : Store) (name : List UInt8) (ans : Answers) : Option Store := do
  match ← get_node_by_name st name with
  | none => return st
  | some n => set_func st n ans

def cmd_copy (st : Store) (source new : List UInt8) : Option Store := do
  match ← get_node_by_name st source with
  | none => return st
  | some n =>
    let node ← st.nodes.load n
    let new_node := st.nodes.next
    let st := { st with nodes := st.nodes.malloc node }
    return insert_node (set_node_name st new_node new) new_node

def cmd_delete (st : Store) (name : List UInt8) : Option Store := do
  match ← get_node_by_name st name with
  | none => return st
  | some n => delete_node st n

def step (st : Store) : Command → Option Store
  | .add name type ans => cmd_add st name type ans
  | .edit name ans => cmd_edit st name ans
  | .copy source new => cmd_copy st source new
  | .delete name => cmd_delete st name

end CtfChallenges.Kvaas
