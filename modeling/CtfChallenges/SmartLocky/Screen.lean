import CtfChallenges.Framework.CString
import CtfChallenges.Framework.RingTable
import CtfChallenges.Framework.Run
import Mathlib.Data.List.Forall2
import Mathlib.Data.List.GetD
import Mathlib.Data.Vector.Basic

/-!
# The screen log of smart-locky

`screen_print` of `main.c`: five lines in a ring, printed from the bottom of the screen to its top.
-/

namespace CtfChallenges.SmartLocky
open Framework CString RingLog

def SCREEN_LINES : Nat := 5
def MAX_LINE_LEN : Nat := 32
def MARGIN_LEFT : Int := 4

/-- `s_screen_buf`, a block of memory for each line, and the static `line_idx`. -/
structure Screen where
  s_screen_buf : Vector Mem SCREEN_LINES
  line_idx : Nat

/-- Both are static, so they start as zeros. -/
def Screen.initial : Screen where
  s_screen_buf := Vector.replicate SCREEN_LINES (List.replicate (MAX_LINE_LEN + 1) 0)
  line_idx := 0

/-- The arguments of a call of `TFT_print`. -/
structure Print where
  line : List UInt8
  x : Int
  y : Int
  deriving DecidableEq, Repr

/-- A pass of the loop of `screen_print`, which counts `i` down from `SCREEN_LINES`. -/
def print_line (line_height : Int) (s_screen_buf : Vector Mem SCREEN_LINES) (line_idx pass : Nat) :
    Option Print := do
  let i := SCREEN_LINES - pass
  let line ← s_screen_buf[(i + line_idx) % SCREEN_LINES]?
  return { line := ← cstr line 0, x := MARGIN_LEFT, y := ((i : Int) - 1) * line_height + 1 }

/-- `buf` is a string without its terminator, and `line_height` is what `TFT_getfontheight` returns.
The prints are in the order of the calls. -/
def screen_print (line_height : Int) (screen : Screen) (buf : List UInt8) :
    Option (List Print × Screen) := do
  let row ← screen.s_screen_buf[screen.line_idx]?
  let row ← strncpy row 0 buf MAX_LINE_LEN
  let row ← store row MAX_LINE_LEN 0
  let s_screen_buf := screen.s_screen_buf.setIfInBounds screen.line_idx row
  let prints ← (List.range SCREEN_LINES).mapM (print_line line_height s_screen_buf screen.line_idx)
  return (prints, { s_screen_buf := s_screen_buf, line_idx := (screen.line_idx + 1) % SCREEN_LINES })

/-- A message as the callers pass it. -/
structure Message where
  bytes : List UInt8
  no_nul : 0 ∉ bytes

/-- The screen after a series of calls. -/
def after (line_height : Int) (messages : List Message) : Option Screen :=
  messages.foldlM (fun screen message => (screen_print line_height screen message.bytes).map (·.2))
    Screen.initial

/-- A line of the buffer that holds a text. -/
structure Holds (row : Mem) (text : List UInt8) : Prop where
  length_eq : row.length = MAX_LINE_LEN + 1
  text_at : StringAt row 0 text

/-- From `line_idx` on, the buffer holds the texts. -/
structure Shows (screen : Screen) (texts : List (List UInt8)) : Prop where
  idx_lt : screen.line_idx < SCREEN_LINES
  rows : List.Forall₂ Holds (screen.s_screen_buf.toList.rotate screen.line_idx) texts

theorem initial_shows : Shows Screen.initial (List.replicate SCREEN_LINES []) := by
  have hrow : Holds (List.replicate (MAX_LINE_LEN + 1) 0) [] :=
    ⟨List.length_replicate, List.not_mem_nil, List.replicate MAX_LINE_LEN 0, rfl⟩
  constructor
  · decide
  · rw [Screen.initial, Vector.toList_replicate, List.rotate_replicate]
    exact List.forall₂_iff_get.mpr ⟨by simp, by simpa using fun _ _ => hrow⟩

/-- The copy of a message, cut to the width of the screen. -/
theorem copy_holds {row : Mem} (h : row.length = MAX_LINE_LEN + 1) (message : Message) :
    ∃ copied row', strncpy row 0 message.bytes MAX_LINE_LEN = some copied ∧
      store copied MAX_LINE_LEN 0 = some row' ∧ Holds row' (message.bytes.take MAX_LINE_LEN) := by
  have hroom : 0 + MAX_LINE_LEN ≤ row.length := by omega
  have hcopied : (overwrite row 0 (padded message.bytes MAX_LINE_LEN)).length = row.length := by
    apply length_overwrite
    rwa [length_padded]
  refine ⟨overwrite row 0 (padded message.bytes MAX_LINE_LEN),
    overwrite row 0 (padded message.bytes MAX_LINE_LEN ++ [0]), ?_, ?_, ?_, ?_⟩
  · rw [strncpy, if_pos hroom]
  · rw [store_eq (by omega), overwrite_append (Nat.zero_le _), length_padded, Nat.zero_add]
  · rw [length_overwrite (by simp; omega), h]
  · exact stringAt_padded (Nat.zero_le _) message.no_nul

section
variable {ring : Vector Mem SCREEN_LINES} {idx : Nat} {texts : List (List UInt8)}

/-- The loop reads the lines in the order from `line_idx + 1` on, backwards. -/
theorem print_line_spec
    (hrows : List.Forall₂ Holds (ring.toList.rotate ((idx + 1) % SCREEN_LINES)) texts)
    (line_height : Int) {pass : Nat} (hpass : pass < SCREEN_LINES) :
    print_line line_height ring idx pass = some ⟨texts.getD (SCREEN_LINES - 1 - pass) [],
      MARGIN_LEFT, ((SCREEN_LINES - 1 - pass : Nat) : Int) * line_height + 1⟩ := by
  have hlen := hrows.length_eq
  have hring : (ring.toList.rotate ((idx + 1) % SCREEN_LINES)).length = SCREEN_LINES := by
    rw [List.length_rotate, Vector.length_toList]
  have hrow : SCREEN_LINES - 1 - pass < (ring.toList.rotate ((idx + 1) % SCREEN_LINES)).length := by
    omega
  have htext : SCREEN_LINES - 1 - pass < texts.length := by omega
  have hread : ring[(SCREEN_LINES - pass + idx) % SCREEN_LINES]? =
      some (ring.toList.rotate ((idx + 1) % SCREEN_LINES))[SCREEN_LINES - 1 - pass] := by
    have hplace : SCREEN_LINES - pass + idx = SCREEN_LINES - 1 - pass + (idx + 1) := by omega
    rw [List.length_rotate] at hrow
    rw [← List.getElem?_eq_getElem, List.getElem?_rotate hrow, Vector.length_toList,
      Vector.getElem?_toList, Nat.add_mod_mod, hplace]
  have hheight : ((SCREEN_LINES - pass : Nat) : Int) - 1 = (SCREEN_LINES - 1 - pass : Nat) := by
    omega
  have hstring := cstr_eq_some (hrows.get hrow htext).text_at
  rw [List.getD_eq_getElem _ _ htext]
  simp only [print_line, hread, hheight, Option.bind_eq_bind, Option.bind_some]
  exact (congrArg (Option.bind · _) hstring).trans rfl

/-- The calls of `TFT_print` for five rows, from the bottom of the screen to the top. -/
def printed (line_height : Int) (rows : List (List UInt8)) : List Print :=
  (rows.mapIdx fun i line => ⟨line, MARGIN_LEFT, i * line_height + 1⟩).reverse

theorem print_rows
    (hrows : List.Forall₂ Holds (ring.toList.rotate ((idx + 1) % SCREEN_LINES)) texts)
    (line_height : Int) :
    (List.range SCREEN_LINES).mapM (print_line line_height ring idx) =
      some (printed line_height texts) := by
  have hlen := hrows.length_eq
  rw [List.length_rotate, Vector.length_toList] at hlen
  rw [mapM_some fun pass hpass => print_line_spec hrows line_height (List.mem_range.mp hpass), printed]
  congr 1
  apply List.ext_getElem
  · simp [hlen]
  · intro pass hpass _
    rw [List.length_map, List.length_range] at hpass
    have htext : SCREEN_LINES - 1 - pass < texts.length := by omega
    simp [← hlen, List.getElem?_eq_getElem htext]

end

/-- A call prints the rows that the buffer shows from then on: the message has come behind them. -/
theorem screen_print_spec {screen : Screen} {texts : List (List UInt8)} (h : Shows screen texts)
    (line_height : Int) (message : Message) :
    ∃ screen', screen_print line_height screen message.bytes =
        some (printed line_height (texts.tail ++ [message.bytes.take MAX_LINE_LEN]), screen') ∧
      Shows screen' (texts.tail ++ [message.bytes.take MAX_LINE_LEN]) := by
  obtain ⟨hidx, hrows⟩ := h
  have hlt : screen.line_idx < screen.s_screen_buf.toList.length := by
    rwa [Vector.length_toList]
  rw [rotate_eq_cons hlt] at hrows
  obtain _ | ⟨hoverwritten, hkept⟩ := hrows
  rename_i text texts
  have hrow : screen.s_screen_buf[screen.line_idx]? =
      some screen.s_screen_buf.toList[screen.line_idx] := by
    rw [← List.getElem?_eq_getElem, Vector.getElem?_toList]
  obtain ⟨copied, row, hcopied, hstored, hholds⟩ := copy_holds hoverwritten.length_eq message
  have hrows : List.Forall₂ Holds ((screen.s_screen_buf.setIfInBounds screen.line_idx row).toList.rotate
      ((screen.line_idx + 1) % SCREEN_LINES)) (texts ++ [message.bytes.take MAX_LINE_LEN]) := by
    have hset := rotate_set hlt row
    rw [Vector.length_toList] at hset
    rw [Vector.toList_setIfInBounds, hset]
    exact List.rel_append hkept (.cons hholds .nil)
  refine ⟨⟨screen.s_screen_buf.setIfInBounds screen.line_idx row,
    (screen.line_idx + 1) % SCREEN_LINES⟩, ?_, ?_⟩
  · simp only [screen_print, hrow, hcopied, hstored, print_rows hrows line_height,
      Option.bind_eq_bind, Option.bind_some, List.tail_cons]
    rfl
  · constructor
    · exact Nat.mod_lt _ (by decide)
    · exact hrows

/-- The last five messages, cut to the width of the screen, below blank rows. -/
def rows (messages : List Message) : List (List UInt8) :=
  lastEntries SCREEN_LINES [] (messages.map fun message => message.bytes.take MAX_LINE_LEN)

theorem rows_append (messages : List Message) (message : Message) :
    rows (messages ++ [message]) = (rows messages).tail ++ [message.bytes.take MAX_LINE_LEN] := by
  rw [rows, List.map_append, List.map_singleton, lastEntries_append (by decide)]
  rfl

theorem after_shows (line_height : Int) (messages : List Message) :
    ∃ screen, after line_height messages = some screen ∧ Shows screen (rows messages) := by
  induction messages using List.reverseRecOn with
  | nil => exact ⟨Screen.initial, rfl, initial_shows⟩
  | append_singleton messages message ih =>
    obtain ⟨screen, hafter, hshows⟩ := ih
    obtain ⟨screen', hprint, hshows'⟩ := screen_print_spec hshows line_height message
    rw [after] at hafter
    refine ⟨screen', ?_, by rwa [rows_append]⟩
    simp [after, hafter, hprint]

/-- Every call has a value and prints the last five messages, whatever came before it. -/
theorem screen_log (line_height : Int) (messages : List Message) (message : Message) :
    ∃ screen screen' prints, after line_height messages = some screen ∧
      screen_print line_height screen message.bytes = some (prints, screen') ∧
      prints.reverse = (rows (messages ++ [message])).mapIdx fun i line =>
        ⟨line, MARGIN_LEFT, i * line_height + 1⟩ := by
  obtain ⟨screen, hafter, hshows⟩ := after_shows line_height messages
  obtain ⟨screen', hprint, -⟩ := screen_print_spec hshows line_height message
  refine ⟨screen, screen', _, hafter, hprint, ?_⟩
  rw [printed, List.reverse_reverse, rows_append]

end CtfChallenges.SmartLocky
