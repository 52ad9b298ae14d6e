import CtfChallenges.Framework.Run
import Mathlib.Data.Vector.Basic

/-!
# The boards of G-man

The maps of `gman.c` and the two bitmaps of a level, one bit for each cell. An access outside an
array has no value.
-/

namespace CtfChallenges.Gman
open Framework

def MAX_LEVELS : Nat := 100
def BOARD_COUNT : Nat := 4
def ROWS : Nat := 21
def COLS : Nat := 27

def BOARDS : List (List String) := [
    [
      "1111111111111 1111111111111",
      "11          1 1          11",
      "11 1111 111 1 1 111 1111 11",
      "11                       11",
      "11 1111 11111 11111 1111 11",
      "11         11 11         11",
      "1111111 11       11 1111111",
      "1111111 11111 11111 1111111",
      "1111111 11111 11111 1111111",
      "                           ",
      "1111111 1111   1111 1111111",
      "1111111 11111 11111 1111111",
      "1111111 111     111 1111111",
      "11          111          11",
      "11 11 111 1111111 111 11 11",
      "11    11           11    11",
      "11111 11 111111111 11 11111",
      "                           ",
      "11 111 11111 1 11111 111 11",
      "11                       11",
      "1111111111111 1111111111111"
    ],
    [
      "111111111111111111111111111",
      "11                       11",
      "11 11111111 111 11111111 11",
      "                           ",
      "11 1111 11111111111 1111 11",
      "11         11111         11",
      "1111111 11       11 1111111",
      "1111111 11111 11111 1111111",
      "1111111 11111 11111 1111111",
      "11                       11",
      "11 1111 1111   1111 1111 11",
      "11 1111 11111 11111 1111 11",
      "11 1111 111     111 1111 11",
      "11          111          11",
      "11 11 111 1111111 111 11 11",
      "      11           11      ",
      "11111 11 111111111 11 11111",
      "11                       11",
      "11 111 11111 1 11111 111 11",
      "11                       11",
      "111111111111111111111111111"
    ],
    [
      "111111111111111111111111111",
      "                           ",
      "111111111 1 111 1 111111111",
      "11                       11",
      "11 1111 11111111111 1111 11",
      "11         11111         11",
      "11 1111 11       11 1111 11",
      "11 1111 11111 11111 1111 11",
      "11 1111 11111 11111 1111 11",
      "11                       11",
      "11 1111 1111   1111 1111 11",
      "11 1111 11111 11111 1111 11",
      "11 1111 111     111 1111 11",
      "11          111          11",
      "11 11 111 1111111 111 11 11",
      "11    11           11    11",
      "11111 11 111111111 11 11111",
      "                           ",
      "111111111111 1 111111111111",
      "                           ",
      "111111111111111111111111111"
    ],
    [
      "111111111111111111111111111",
      "1                         1",
      "1 1 1 111 1 1 1 1 111 1 1 1",
      "1 1 1 111 1 1 1 1 111 1 1 1",
      "1 1 1 111 1 1 1 1 111 1 1 1",
      "1 1 1 111  11 11  111 1 1 1",
      "1   1   11       11   1   1",
      "1 11111 11111 11111 11111 1",
      "1 11111 11111 11111 11111 1",
      "1                         1",
      "1 1 111 1111   1111 111 1 1",
      "1 1 111 11111 11111 111 1 1",
      "1 1 111 111     111 111 1 1",
      "1 1         111         1 1",
      "1 111 111 1111111 111 111 1",
      "1 1                     1 1",
      "1 11111111111111111111111 1",
      "1                         1",
      "1 1111 11111 1 11111 1111 1",
      "1                         1",
      "111111111111111111111111111"
    ]
  ]

/-- `BOARDS[b % BOARD_COUNT][y][x]`. -/
def drawn (b x y : Nat) : Option Char := do
  let rows ← BOARDS[b % BOARD_COUNT]?
  let row ← rows[y]?
  row.toList[x]?

/-- An array of `(ROWS*COLS+1) / 8` bytes. -/
abbrev Bitmap := Vector (BitVec 8) 71

structure Board where
  pellets : Bitmap
  walls : Bitmap

def set_bit (array : Bitmap) (x y : Nat) (value : UInt8) : Option Bitmap :=
  let byte := (y * COLS + x) / 8
  let bit := 7 - (y * COLS + x) % 8
  if h : byte < 71 then
    if value ≠ 0 then some (array.set byte (array[byte] ||| 1#8 <<< bit))
    else some (array.set byte (array[byte] &&& ~~~(1#8 <<< bit)))
  else none

def get_bit (array : Bitmap) (x y : Nat) : Option Bool :=
  let byte := (y * COLS + x) / 8
  let bit := 7 - (y * COLS + x) % 8
  (array[byte]?).map fun b => b &&& 1#8 <<< bit != 0

/-- The cells in the order of the loops: column by column. -/
def cells : List (Nat × Nat) :=
  (List.range COLS).flatMap fun x => (List.range ROWS).map fun y => (x, y)

/-- The body of the loops of `initialize_boards`. -/
def initialize_cell (b : Nat) (board : Board) (cell : Nat × Nat) : Option Board := do
  let (x, y) := cell
  let c ← drawn b x y
  let walls ← set_bit board.walls x y (c == '1').toUInt8
  let pellets ← set_bit board.pellets x y (c == ' ').toUInt8
  return { walls := walls, pellets := pellets }

def initialize_board (boards : Vector Board MAX_LEVELS) (b : Fin MAX_LEVELS) :
    Option (Vector Board MAX_LEVELS) := do
  let board ← cells.foldlM (initialize_cell b) (boards.get b)
  return boards.set b board

def initialize_boards (boards : Vector Board MAX_LEVELS) : Option (Vector Board MAX_LEVELS) :=
  (List.finRange MAX_LEVELS).foldlM initialize_board boards

def OnBoard (x y : Nat) : Prop := x < COLS ∧ y < ROWS

theorem OnBoard.byte_lt {x y : Nat} (h : OnBoard x y) : (y * COLS + x) / 8 < 71 := by
  simp only [OnBoard, COLS, ROWS] at h ⊢
  omega

theorem get_bit_isSome {x y : Nat} (h : OnBoard x y) (a : Bitmap) : (get_bit a x y).isSome := by
  simp [get_bit, h.byte_lt]

theorem set_bit_isSome {x y : Nat} (h : OnBoard x y) (a : Bitmap) (value : UInt8) :
    ∃ a', set_bit a x y value = some a' := by
  simp only [set_bit, h.byte_lt, dif_pos]
  split
  · exact ⟨_, rfl⟩
  · exact ⟨_, rfl⟩

private theorem and_bit_ne_zero (v : BitVec 8) {k : Nat} (hk : k < 8) :
    (v &&& 1#8 <<< k != 0) = v.getLsbD k := by
  have hbit : BitVec.twoPow 8 k ≠ 0#8 := by
    intro h
    have hk' := congrArg (BitVec.getLsbD · k) h
    simp [hk] at hk'
  rw [← BitVec.twoPow_eq, BitVec.and_twoPow]
  cases v.getLsbD k
  · simp
  · simpa using hbit

theorem get_bit_eq (a : Bitmap) (x y : Nat) : get_bit a x y =
    (a[(y * COLS + x) / 8]?).map fun b => b.toNat.testBit (7 - (y * COLS + x) % 8) := by
  rw [get_bit]
  congr 1
  funext b
  exact and_bit_ne_zero b (by omega)

private theorem getLsbD_written (v : BitVec 8) {j k : Nat} (hj : j < 8) (value : UInt8) :
    BitVec.getLsbD (if value ≠ 0 then v ||| 1#8 <<< k else v &&& ~~~(1#8 <<< k)) j =
      if j = k then decide (value ≠ 0) else v.getLsbD j := by
  rw [← BitVec.twoPow_eq]
  by_cases hv : value = 0 <;> by_cases hjk : j = k
  · simp [hv, hjk]
  · simp [hv, hjk, hj]
  · subst hjk
    simp [hv, hj]
  · simp [hv, hjk, Ne.symm hjk]

theorem set_bit_eq {a a' : Bitmap} {x y : Nat} {value : UInt8}
    (hset : set_bit a x y value = some a') (hbyte : (y * COLS + x) / 8 < 71) :
    a' = a.set ((y * COLS + x) / 8)
      (if value ≠ 0 then a[(y * COLS + x) / 8] ||| 1#8 <<< (7 - (y * COLS + x) % 8)
        else a[(y * COLS + x) / 8] &&& ~~~(1#8 <<< (7 - (y * COLS + x) % 8))) := by
  simp only [set_bit, hbyte, dif_pos] at hset
  split at hset <;> simp_all

/-- Writing a cell changes that cell and no other. -/
theorem get_bit_set_bit {a a' : Bitmap} {x y : Nat} {value : UInt8}
    (hset : set_bit a x y value = some a') (h : OnBoard x y) {x' y' : Nat} (h' : OnBoard x' y') :
    get_bit a' x' y' =
      if x' = x ∧ y' = y then some (decide (value ≠ 0)) else get_bit a x' y' := by
  have hbyte := h.byte_lt
  have hbyte' := h'.byte_lt
  have hwritten := set_bit_eq hset hbyte
  have hcell : x' = x ∧ y' = y ↔ y' * COLS + x' = y * COLS + x := by
    simp only [OnBoard, COLS, ROWS] at h h' ⊢
    omega
  simp only [get_bit, hbyte', getElem?_pos, Option.map_some, hcell]
  generalize y' * COLS + x' = i' at hbyte' ⊢
  generalize y * COLS + x = i at hbyte hwritten ⊢
  rw [and_bit_ne_zero _ (by omega), and_bit_ne_zero _ (by omega)]
  by_cases hsame : i' / 8 = i / 8
  · have hbit : 7 - i' % 8 = 7 - i % 8 ↔ i' = i := by omega
    have hread : a'[i' / 8] = if value ≠ 0 then a[i' / 8] ||| 1#8 <<< (7 - i % 8)
        else a[i' / 8] &&& ~~~(1#8 <<< (7 - i % 8)) := by
      simp only [hwritten, hsame, Vector.getElem_set_self]
    rw [hread, getLsbD_written _ (by omega)]
    simp only [hbit]
    split <;> rfl
  · have hne : i' ≠ i := fun h => hsame (by rw [h])
    have hread : a'[i' / 8] = a[i' / 8] := by
      simp only [hwritten, Vector.getElem_set_ne _ _ (Ne.symm hsame)]
    rw [hread, if_neg hne]

/-- What a write to a cell leaves behind in the bitmap `a`. -/
structure CellWritten (a : Bitmap) (x y : Nat) (value : UInt8) (a' : Bitmap) : Prop where
  written : get_bit a' x y = some (decide (value ≠ 0))
  other_cells : ∀ x' y', OnBoard x' y' → ¬ (x' = x ∧ y' = y) → get_bit a' x' y' = get_bit a x' y'
  inside : (y * COLS + x) / 8 < 71
  other_bytes : ∀ byte (hbyte : byte < 71), byte ≠ (y * COLS + x) / 8 → a'[byte] = a[byte]

theorem set_bit_written {x y : Nat} (h : OnBoard x y) (a : Bitmap) (value : UInt8) :
    ∃ a', set_bit a x y value = some a' ∧ CellWritten a x y value a' := by
  obtain ⟨a', hset⟩ := set_bit_isSome h a value
  refine ⟨a', hset, ?_, ?_, h.byte_lt, ?_⟩
  · rw [get_bit_set_bit hset h h, if_pos ⟨rfl, rfl⟩]
  · intro x' y' h' hother
    rw [get_bit_set_bit hset h h', if_neg hother]
  · intro byte hbyte hother
    rw [set_bit_eq hset h.byte_lt]
    exact Vector.getElem_set_ne _ _ (Ne.symm hother)

theorem mem_cells {x y : Nat} : (x, y) ∈ cells ↔ OnBoard x y := by
  simp [cells, OnBoard]

/-! ### The maps as bits

A row as a number, its walls as ones: checks of whole maps compute with numbers, not with text. -/

private def rowBits : List (List Nat) := [
  [0x7ffdfff, 0x6005003, 0x6f7577b, 0x6000003, 0x6f7df7b, 0x600d803, 0x7f6037f,
    0x7f7df7f, 0x7f7df7f, 0x0000000, 0x7f78f7f, 0x7f7df7f, 0x7f7077f, 0x6007003,
    0x6ddfddb, 0x61800c3, 0x7dbfedf, 0x0000000, 0x6efafbb, 0x6000003, 0x7ffdfff],
  [0x7ffffff, 0x6000003, 0x6ff77fb, 0x0000000, 0x6f7ff7b, 0x600f803, 0x7f6037f,
    0x7f7df7f, 0x7f7df7f, 0x6000003, 0x6f78f7b, 0x6f7df7b, 0x6f7077b, 0x6007003,
    0x6ddfddb, 0x01800c0, 0x7dbfedf, 0x6000003, 0x6efafbb, 0x6000003, 0x7ffffff],
  [0x7ffffff, 0x0000000, 0x7fd75ff, 0x6000003, 0x6f7ff7b, 0x600f803, 0x6f6037b,
    0x6f7df7b, 0x6f7df7b, 0x6000003, 0x6f78f7b, 0x6f7df7b, 0x6f7077b, 0x6007003,
    0x6ddfddb, 0x61800c3, 0x7dbfedf, 0x0000000, 0x7ffafff, 0x0000000, 0x7ffffff],
  [0x7ffffff, 0x4000001, 0x55d55d5, 0x55d55d5, 0x55d55d5, 0x55cd9d5, 0x4460311,
    0x5f7df7d, 0x5f7df7d, 0x4000001, 0x5778f75, 0x577df75, 0x5770775, 0x5007005,
    0x5ddfddd, 0x5000005, 0x5fffffd, 0x4000001, 0x5efafbd, 0x4000001, 0x7ffffff]
  ]

private def rowChars (n : Nat) : List Char :=
  (List.range COLS).map fun x => if n.testBit (COLS - 1 - x) then '1' else ' '

private theorem boards_eq :
    BOARDS = rowBits.map fun rows => rows.map fun n => String.ofList (rowChars n) := by
  rfl

private theorem rowBits_table : rowBits.length = BOARD_COUNT ∧
    ∀ rows ∈ rowBits, rows.length = ROWS ∧ rows[0]? = rows[ROWS - 1]? ∧
      ∀ n ∈ rows, n.testBit 0 = n.testBit (COLS - 1) := by
  decide +kernel

private theorem drawn_rows (b x y : Nat) : drawn b x y =
    (rowBits[b % BOARD_COUNT]?).bind fun rows => (rows[y]?).bind fun n => (rowChars n)[x]? := by
  simp only [drawn, boards_eq, List.getElem?_map, Option.bind_eq_bind, Option.bind_map,
    Function.comp_def, String.toList_ofList]

private theorem rowChars_getElem? {n x : Nat} {c : Char} (h : (rowChars n)[x]? = some c) :
    c = '1' ∨ c = ' ' := by
  obtain ⟨x', -, rfl⟩ := List.mem_map.mp (List.mem_of_getElem? h)
  split
  · exact .inl rfl
  · exact .inr rfl

/-- Whether a cell of a map is a wall. -/
def wallBit (b x y : Nat) : Bool :=
  (((rowBits[b % BOARD_COUNT]?).getD [])[y]?.getD 0).testBit (COLS - 1 - x)

theorem drawn_eq {x y : Nat} (h : OnBoard x y) (b : Nat) :
    drawn b x y = some (if wallBit b x y then '1' else ' ') := by
  have hb : b % BOARD_COUNT < rowBits.length := by
    rw [rowBits_table.1]
    exact Nat.mod_lt _ (by decide)
  have hy : y < rowBits[b % BOARD_COUNT].length := by
    rw [(rowBits_table.2 _ (List.getElem_mem hb)).1]
    exact h.2
  have hx : x < (List.range COLS).length := by
    rw [List.length_range]
    exact h.1
  rw [drawn_rows, wallBit, List.getElem?_eq_getElem hb, Option.bind_some, Option.getD_some,
    List.getElem?_eq_getElem hy, Option.bind_some, Option.getD_some, rowChars, List.getElem?_map,
    List.getElem?_eq_getElem hx, List.getElem_range]
  rfl

theorem drawn_isSome {x y : Nat} (h : OnBoard x y) (b : Nat) : ∃ c, drawn b x y = some c :=
  ⟨_, drawn_eq h b⟩

theorem drawn_cases {b x y : Nat} {c : Char} (h : drawn b x y = some c) : c = '1' ∨ c = ' ' := by
  rw [drawn_rows, Option.bind_eq_some_iff] at h
  obtain ⟨rows, -, h⟩ := h
  obtain ⟨n, -, h⟩ := Option.bind_eq_some_iff.mp h
  exact rowChars_getElem? h

/-- The first and the last column are the same. -/
theorem drawn_left_right (b y : Nat) : drawn b 0 y = drawn b (COLS - 1) y := by
  rw [drawn_rows, drawn_rows]
  cases hrows : rowBits[b % BOARD_COUNT]? with
  | none => rfl
  | some rows =>
    rw [Option.bind_some, Option.bind_some]
    cases hn : rows[y]? with
    | none => rfl
    | some n =>
      obtain ⟨-, -, hedge⟩ := rowBits_table.2 rows (List.mem_of_getElem? hrows)
      have hsame := hedge n (List.mem_of_getElem? hn)
      have hleft : (List.range COLS)[0]? = some 0 := rfl
      have hright : (List.range COLS)[COLS - 1]? = some (COLS - 1) := rfl
      rw [Option.bind_some, Option.bind_some, rowChars, List.getElem?_map, List.getElem?_map, hleft,
        hright]
      exact congrArg (fun bit : Bool => some (if bit = true then '1' else ' ')) hsame.symm

theorem drawn_top_bottom (b x : Nat) : drawn b x 0 = drawn b x (ROWS - 1) := by
  rw [drawn_rows, drawn_rows]
  cases hrows : rowBits[b % BOARD_COUNT]? with
  | none => rfl
  | some rows =>
    obtain ⟨-, hedge, -⟩ := rowBits_table.2 rows (List.mem_of_getElem? hrows)
    rw [Option.bind_some, Option.bind_some, hedge]

/-- The walls and the pellets of the drawn board `b`. -/
def Pristine (b : Nat) (board : Board) : Prop :=
  ∀ x y, OnBoard x y → get_bit board.walls x y = some (drawn b x y == some '1') ∧
    get_bit board.pellets x y = some (drawn b x y == some ' ')

private theorem toUInt8_ne_zero (v : Bool) : decide (v.toUInt8 ≠ 0) = v := by
  cases v <;> decide

private theorem initialize_cell_establishes (b : Nat) (board : Board) (cell : Nat × Nat)
    (hcell : OnBoard cell.1 cell.2) :
    let P (cell : Nat × Nat) (board : Board) : Prop := OnBoard cell.1 cell.2 →
      get_bit board.walls cell.1 cell.2 = some (drawn b cell.1 cell.2 == some '1') ∧
        get_bit board.pellets cell.1 cell.2 = some (drawn b cell.1 cell.2 == some ' ')
    ∃ board', initialize_cell b board cell = some board' ∧ P cell board' ∧
      ∀ other, P other board → P other board' := by
  obtain ⟨x, y⟩ := cell
  intro P
  obtain ⟨c, hc⟩ := drawn_isSome hcell b
  obtain ⟨walls, hwalls⟩ := set_bit_isSome hcell board.walls (c == '1').toUInt8
  obtain ⟨pellets, hpellets⟩ := set_bit_isSome hcell board.pellets (c == ' ').toUInt8
  have hread : ∀ other : Nat × Nat, OnBoard other.1 other.2 →
      get_bit walls other.1 other.2 = (if other.1 = x ∧ other.2 = y then some (c == '1')
        else get_bit board.walls other.1 other.2) ∧
      get_bit pellets other.1 other.2 = (if other.1 = x ∧ other.2 = y then some (c == ' ')
        else get_bit board.pellets other.1 other.2) := by
    intro other hother
    rw [get_bit_set_bit hwalls hcell hother, get_bit_set_bit hpellets hcell hother,
      toUInt8_ne_zero, toUInt8_ne_zero]
    exact ⟨rfl, rfl⟩
  refine ⟨⟨pellets, walls⟩, ?_, ?_, ?_⟩
  · simp only at hcell
    simp [initialize_cell, hc, hwalls, hpellets]
  · intro _
    obtain ⟨hw, hp⟩ := hread (x, y) hcell
    simp [hw, hp, hc]
  · intro other hold hother
    obtain ⟨hw, hp⟩ := hread other hother
    obtain ⟨hw', hp'⟩ := hold hother
    rw [hw, hp]
    by_cases hsame : other.1 = x ∧ other.2 = y
    · simp [hsame, hc]
    · simp [hsame, hw', hp']

theorem get_set {α : Type} {n : Nat} (v : Vector α n) (i j : Fin n) (a : α) :
    (v.set i a).get j = if j = i then a else v.get j := by
  change (v.set i a)[j.val] = _
  rw [Vector.getElem_set]
  simp only [Fin.ext_iff, eq_comm]
  rfl

private theorem initialize_board_establishes (boards : Vector Board MAX_LEVELS)
    (b : Fin MAX_LEVELS) :
    ∃ boards', initialize_board boards b = some boards' ∧ Pristine b (boards'.get b) ∧
      ∀ other : Fin MAX_LEVELS, Pristine other (boards.get other) → Pristine other (boards'.get other) := by
  obtain ⟨board, hboard, hall, -⟩ := foldlM_establishes
    (Q := fun cell => OnBoard cell.1 cell.2) (initialize_cell_establishes b) cells
    (fun cell hcell => mem_cells.mp hcell) (boards.get b)
  have hpristine : Pristine b board := fun x y hxy => hall (x, y) (mem_cells.mpr hxy) hxy
  refine ⟨boards.set b board, ?_, ?_, ?_⟩
  · simp only [initialize_board, hboard, Option.bind_eq_bind, Option.bind_some, Option.pure_def]
  · rw [get_set, if_pos rfl]
    exact hpristine
  · intro other hother
    rw [get_set]
    by_cases hsame : other = b
    · rw [if_pos hsame, hsame]
      exact hpristine
    · rw [if_neg hsame]
      exact hother

/-- Whatever the memory held, every level starts as its drawn board. -/
theorem initialize_boards_pristine (boards : Vector Board MAX_LEVELS) :
    ∃ boards', initialize_boards boards = some boards' ∧
      ∀ b : Fin MAX_LEVELS, Pristine b (boards'.get b) := by
  obtain ⟨boards', hboards, hall, -⟩ := foldlM_establishes
    (P := fun (b : Fin MAX_LEVELS) (boards : Vector Board MAX_LEVELS) => Pristine b (boards.get b))
    (Q := fun _ => True) (fun boards b _ => initialize_board_establishes boards b)
    (List.finRange MAX_LEVELS) (fun _ _ => trivial) boards
  exact ⟨boards', hboards, fun b => hall b (List.mem_finRange b)⟩

/-- The cells of a bitmap are independent, and the start of the game draws every board. -/
theorem bitmap_cells :
    (∀ (a : Bitmap) (x y : Nat) (value : UInt8), OnBoard x y →
      ∃ a', set_bit a x y value = some a' ∧ CellWritten a x y value a') ∧
    ∀ boards : Vector Board MAX_LEVELS, ∃ boards', initialize_boards boards = some boards' ∧
      ∀ b : Fin MAX_LEVELS, Pristine b (boards'.get b) := by
  constructor
  · intro a x y value h
    exact set_bit_written h a value
  · exact initialize_boards_pristine

end CtfChallenges.Gman
