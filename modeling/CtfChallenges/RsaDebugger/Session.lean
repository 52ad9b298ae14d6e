import CtfChallenges.Framework.CString
import CtfChallenges.Framework.Run
import CtfChallenges.RsaDebugger.KeyState
import CtfChallenges.RsaDebugger.NextPrime

/-!
# A session of the RSA debugger

The loop of `main` over the lines that the scanner yields. Beside the key there are the held message
and the plaintext that it is to be decrypted to. A line comes with the answers of the random generator
while it is handled.
-/

namespace CtfChallenges.RsaDebugger
open Framework BigInt

def BaseTarg : Int :=
  52218557622655182058721298410128724497736237107858961398752582948746717509543923532995392133766377362569696093667328

/-- What `cryptor` returns in `hold_msg`, with no value for an error: a prime of 2048 bits, the number
of dots, and what is added to the base of the target. -/
structure Draws where
  m : Option { p : Nat // p.Prime ∧ 2 ^ 2047 ≤ p ∧ p < 2 ^ 2048 }
  dots : Option (Fin 3)
  rb : Option (Fin 2147483648)

structure Line where
  text : List UInt8
  draws : Draws

structure State where
  CurKey : Key
  CurMsg : Int
  TargMsg : Int

def State.initial : State := ⟨Key.unset, -1, -1⟩

/-- What is printed at a time. The two screens of text are not spelled out. -/
inductive Said
  | text (s : String)
  | help
  | background
  | notFound (command : List UInt8)
  /-- `Satellite response: ` and the flag. -/
  | response

/-- The first prime that is not below the integer. -/
def nextPrime (v : Int) : Nat :=
  Nat.find (show ∃ p : Nat, p.Prime ∧ v ≤ p from ⟨_, (exists_least_prime v).choose_spec.1⟩)

def print_msg (s : State) : List Said :=
  if s.CurMsg ≠ -1 then [.text ("Held Message: " ++ toString s.CurMsg ++ "\n")]
  else [.text "Error: no message being held!\n"]

def print_target (s : State) : List Said :=
  if s.TargMsg ≠ -1 then
    [.text ("Target plaintext for held message: " ++ toString s.TargMsg ++ "\n")]
  else [.text "Error: no target plaintext available!\n"]

def hold_msg (d : Draws) (s : State) : List Said × State :=
  let (out, s) :=
    if s.CurMsg ≠ -1 then
      ([.text "Currently held message released.\n"], { s with CurMsg := -1, TargMsg := -1 })
    else ([], s)
  let out := out ++ [.text "Holding message"]
  match d.m with
  | none => (out ++ [.text "Error: unable to hold message!\n"], s)
  | some m =>
    let out := out ++ [.text "."]
    match d.dots with
    | none => (out ++ [.text "Error: unable to hold message!\n"], s)
    | some rb =>
      let out := out ++ List.replicate (rb.val + 2) (.text ".") ++
        [.text "found a message to hold!\n"]
      let s := { s with CurMsg := m.1 }
      match d.rb with
      | none => (out ++ [.text "Error: unable to find suitable target plaintext!\n"], s)
      | some rb =>
        (out ++ [.text "Target plaintext derived."],
          { s with TargMsg := nextPrime (BaseTarg + rb.val) })

def test_decrypt_msg (s : State) : List Said :=
  match decrypt_msg s.CurKey s.CurMsg with
  | (out, none) => out.map .text
  | (out, some ptext) =>
    out.map .text ++ [.text ("Message decrypted to: " ++ toString ptext ++ "\n")]

def attack (s : State) : List Said :=
  if s.CurKey.d = -1 then [.text "Error: the satellite rejected our key!"]
  else if s.CurMsg = -1 then [.text "Error: we failed to send a held message!"]
  else
    match decrypt_msg s.CurKey s.CurMsg with
    | (out, none) =>
      out.map .text ++ [.text "Error: The satellite failed to decrypt the message"]
    | (out, some ptext) =>
      out.map .text ++
        if s.TargMsg ≠ ptext then [.text "Error: The satellite stopped responding"] else [.response]

/-- A line of `print_key`, with what stands for a missing value. -/
def printParameter (name : String) (v : Int) (unset : String) : Said :=
  .text (" " ++ name ++ ": " ++ (if v ≠ -1 then toString v else unset) ++ "\n")

def print_key (s : State) : List Said :=
  [.text "Current key parameters:\n", printParameter "p" s.CurKey.p "unset",
    printParameter "q" s.CurKey.q "unset", printParameter "derived n" s.CurKey.n "p & q unset",
    printParameter "e" s.CurKey.e "unset", printParameter "derived d" s.CurKey.d "e unset"]

/-- A command on the key. -/
def onKey (c : Command) (s : State) : List Said × Option State :=
  let (out, k) := execute s.CurKey c
  (out.map .text, some { s with CurKey := k })

/-- The `switch` of the loop. There is no next state where the program ends. -/
def handle (s : State) (line : Line) : List Said × Option State :=
  if line.text.length = 0 then ([], some s)
  else
    let tokens := line.text.splitOn 0x20
    let command := tokens.headD []
    if command = ascii "help" ∨ command = ascii "h" ∨ command = ascii "?" then
      ([.help], some s)
    else if command = ascii "background" then ([.background], some s)
    else if command = ascii "printkey" then (print_key s, some s)
    else if command = ascii "resetkey" then onKey .resetkey s
    else if command = ascii "holdmsg" then
      let (out, s) := hold_msg line.draws s
      (out, some s)
    else if command = ascii "printmsg" then (print_msg s, some s)
    else if command = ascii "printtarget" then (print_target s, some s)
    else if command = ascii "setp" then onKey (.setp tokens) s
    else if command = ascii "setq" then onKey (.setq tokens) s
    else if command = ascii "sete" then onKey (.sete tokens) s
    else if command = ascii "testdecrypt" then (test_decrypt_msg s, some s)
    else if command = ascii "attack" then (attack s ++ [.text "\n"], none)
    else if command = ascii "exit" ∨ command = ascii "quit" then ([], none)
    else ([.notFound command], some s)

/-- All that is printed for the lines. -/
def session : State → List Line → List Said
  | _, [] => [.text "\nRSA debugger> ", .text "\n"]
  | s, line :: lines =>
    let (out, next) := handle s line
    .text "\nRSA debugger> " :: out ++ next.elim [] fun s' => session s' lines

/-- The state after lines that do not end the program. -/
def after (s : State) (line : Line) : Option State := (handle s line).2

/-- The private exponent of a consistent key takes a message to the only root of it below `n`. -/
theorem Consistent.decrypt_iff {k : Key} (h : Consistent k) (hd : k.d ≠ -1) (c t : Int) :
    (exp c k.d k.n).getD 0 = t ↔
      0 ≤ t ∧ t < k.n ∧ t ^ (k.e % ((k.p - 1) * (k.q - 1))).toNat ≡ c [ZMOD k.n] := by
  have hq : k.q ≠ -1 := fun hq => hd (h.unset hq).2.2
  obtain ⟨p, q, hf⟩ := h.factored hq
  obtain ⟨-, hd0, hed⟩ := h.inverse hd
  have hn : k.n = ((p * q : Nat) : Int) := by rw [hf.n_eq, hf.p_eq, hf.q_eq, Nat.cast_mul]
  have hp1 := hf.p_prime.one_lt
  have hq1 := hf.q_prime.one_lt
  have hnpos : 0 < k.n := by
    rw [hn]
    exact_mod_cast Nat.mul_pos hf.p_prime.pos hf.q_prime.pos
  have htwo := two_le_totient hf.p_prime hf.q_prime hf.ne
  rw [hf.p_eq, hf.q_eq] at hed ⊢
  -- the public exponent, reduced to a natural number
  generalize he : (k.e % (((p : Int) - 1) * (q - 1))).toNat = e
  have hred : (e : Int) = k.e % (((p : Int) - 1) * (q - 1)) := by
    rw [← he, Int.toNat_of_nonneg (Int.emod_nonneg _ (by omega))]
  have hmod : e * k.d.toNat ≡ 1 [MOD (p - 1) * (q - 1)] := by
    rw [← Int.natCast_modEq_iff]
    push_cast [Int.toNat_of_nonneg hd0, Nat.cast_sub hp1.le, Nat.cast_sub hq1.le]
    rw [hred]
    exact ((Int.mod_modEq _ _).mul_right _).trans hed
  have hpos : 0 < e * k.d.toNat := by
    by_contra hzero
    have hzero' : e * k.d.toNat = 0 := by omega
    rw [hzero', Nat.modEq_iff_dvd] at hmod
    have hone : ((((p - 1) * (q - 1) : Nat)) : Int) ∣ 1 := by simpa using hmod
    have hle := Int.le_of_dvd one_pos hone
    push_cast [Nat.cast_sub hp1.le, Nat.cast_sub hq1.le] at hle
    omega
  have hback := Rsa.pow_pow_modEq hf.p_prime hf.q_prime hf.ne hpos hmod
  rw [Nat.mul_comm e] at hpos hmod
  have hforth := Rsa.pow_pow_modEq hf.p_prime hf.q_prime hf.ne hpos hmod
  rw [← hn] at hback hforth
  simp only [exp, hnpos.ne', show ¬ k.d < 0 by omega, if_false, Option.getD_some]
  constructor
  · intro ht
    rw [← ht]
    exact ⟨Int.emod_nonneg _ hnpos.ne', Int.emod_lt_of_pos _ hnpos,
      ((Int.mod_modEq _ _).pow e).trans (hforth c)⟩
  · rintro ⟨h0, hlt, hroot⟩
    have hpow := (hroot.symm.pow k.d.toNat).trans (hback t)
    rw [hpow.eq, Int.emod_eq_of_lt h0 hlt]

/-- The satellite answers to this state. -/
structure Opens (s : State) : Prop where
  key_set : s.CurKey.d ≠ -1
  held : s.CurMsg ≠ -1
  target : s.TargMsg ≠ -1
  below : s.TargMsg < s.CurKey.n
  root : s.TargMsg ^ (s.CurKey.e % ((s.CurKey.p - 1) * (s.CurKey.q - 1))).toNat ≡
    s.CurMsg [ZMOD s.CurKey.n]

/-- What holds in every state of a session: the key is consistent, what is held is a prime of 2048
bits, and the target is the first prime from somewhere in a range on. -/
structure Ready (s : State) : Prop where
  key : Consistent s.CurKey
  msg : s.CurMsg = -1 ∨ ∃ p : Nat, s.CurMsg = p ∧ p.Prime ∧ 2 ^ 2047 ≤ p ∧ p < 2 ^ 2048
  target : s.TargMsg = -1 ∨ ∃ r < 2147483648, ∃ p : Nat, s.TargMsg = p ∧
    IsLeast (primesFrom (BaseTarg + (r : Nat))) p
  target_of_msg : s.CurMsg = -1 → s.TargMsg = -1

theorem nextPrime_least (v : Int) : IsLeast (primesFrom v) (nextPrime v) :=
  ⟨Nat.find_spec _, fun _ hq => Nat.find_min' _ hq⟩

/-- On any heap, `next_prime` finds this prime when it may run long enough. -/
theorem next_prime_nextPrime {heap : Memory.Heap Int} {n : Nat} {v : Int} (hn : heap.Live n v) :
    ∃ (pp : Nat) (heap' : Memory.Heap Int), heap'.Live pp (nextPrime v) ∧
      ∃ passes, ∀ fuel, passes ≤ fuel → next_prime fuel heap n = some (pp, heap') := by
  obtain ⟨p, pp, heap', hp, -, hrun, hlive, -⟩ := next_prime_least hn
  have hsame : p = nextPrime v := hp.unique (nextPrime_least v)
  exact ⟨pp, heap', hsame ▸ hlive, hrun⟩

theorem initial_ready : Ready State.initial :=
  ⟨unset_consistent, .inl rfl, .inl rfl, fun _ => rfl⟩

theorem hold_msg_ready (d : Draws) {s : State} (h : Ready s) : Ready (hold_msg d s).2 := by
  -- the old message is released with its target
  have hreleased : ∃ out, (if s.CurMsg ≠ -1 then
      ([Said.text "Currently held message released.\n"], { s with CurMsg := -1, TargMsg := -1 })
      else ([], s)) = (out, State.mk s.CurKey (-1) (-1)) := by
    split_ifs with hmsg
    · exact ⟨_, rfl⟩
    · have htarg := h.target_of_msg (not_not.mp hmsg)
      rw [not_not] at hmsg
      refine ⟨[], ?_⟩
      rw [← hmsg]
      nth_rewrite 2 [hmsg]
      rw [← htarg]
  obtain ⟨out, hout⟩ := hreleased
  unfold hold_msg
  rw [hout]
  have hbare : Ready ⟨s.CurKey, -1, -1⟩ := ⟨h.key, .inl rfl, .inl rfl, fun _ => rfl⟩
  cases hm : d.m with
  | none => exact hbare
  | some m =>
    have hheld : ∃ p : Nat, (m.1 : Int) = p ∧ p.Prime ∧ 2 ^ 2047 ≤ p ∧ p < 2 ^ 2048 :=
      ⟨m.1, rfl, m.2⟩
    have hne : (m.1 : Int) ≠ -1 := by omega
    cases hdots : d.dots with
    | none => exact hbare
    | some dots =>
      cases hrb : d.rb with
      | none => exact ⟨h.key, .inr hheld, .inl rfl, fun hmsg => absurd hmsg hne⟩
      | some rb =>
        exact ⟨h.key, .inr hheld, .inr ⟨rb.val, rb.isLt, _, rfl, nextPrime_least _⟩,
          fun hmsg => absurd hmsg hne⟩

theorem onKey_ready (c : Command) {s s' : State} (h : Ready s) (hs' : (onKey c s).2 = some s') :
    Ready s' := by
  cases hs'
  exact ⟨execute_consistent c h.key, h.msg, h.target, h.target_of_msg⟩

theorem handle_ready {s : State} (line : Line) (h : Ready s) :
    ∀ s' ∈ (handle s line).2, Ready s' := by
  let keeps (r : List Said × Option State) : Prop := ∀ s' ∈ r.2, Ready s'
  have hsame (out : List Said) : keeps (out, some s) := by
    intro s' hs'
    cases hs'
    exact h
  have hends (out : List Said) : keeps (out, none) := fun _ hs' => by cases hs'
  have hkey (c : Command) : keeps (onKey c s) := fun _ hs' => onKey_ready c h hs'
  have hhold : keeps ((hold_msg line.draws s).1, some (hold_msg line.draws s).2) := by
    intro s' hs'
    cases hs'
    exact hold_msg_ready _ h
  -- the branches in the order of the `switch`
  refine iteInduction (motive := keeps) (fun _ => hsame _) fun _ => ?_
  refine iteInduction (motive := keeps) (fun _ => hsame _) fun _ => ?_
  refine iteInduction (motive := keeps) (fun _ => hsame _) fun _ => ?_
  refine iteInduction (motive := keeps) (fun _ => hsame _) fun _ => ?_
  refine iteInduction (motive := keeps) (fun _ => hkey _) fun _ => ?_
  refine iteInduction (motive := keeps) (fun _ => hhold) fun _ => ?_
  refine iteInduction (motive := keeps) (fun _ => hsame _) fun _ => ?_
  refine iteInduction (motive := keeps) (fun _ => hsame _) fun _ => ?_
  refine iteInduction (motive := keeps) (fun _ => hkey _) fun _ => ?_
  refine iteInduction (motive := keeps) (fun _ => hkey _) fun _ => ?_
  refine iteInduction (motive := keeps) (fun _ => hkey _) fun _ => ?_
  refine iteInduction (motive := keeps) (fun _ => hsame _) fun _ => ?_
  refine iteInduction (motive := keeps) (fun _ => hends _) fun _ => ?_
  exact iteInduction (motive := keeps) (fun _ => hends _) fun _ => hsame _

theorem attack_iff {s : State} (h : Ready s) : .response ∈ attack s ↔ Opens s := by
  unfold attack
  by_cases hd : s.CurKey.d = -1
  · simp only [if_pos hd, List.mem_singleton, reduceCtorEq, false_iff]
    exact fun ho => ho.key_set hd
  by_cases hmsg : s.CurMsg = -1
  · simp only [if_neg hd, if_pos hmsg, List.mem_singleton, reduceCtorEq, false_iff]
    exact fun ho => ho.held hmsg
  have hroot := h.key.decrypt_iff hd s.CurMsg s.TargMsg
  have hnonneg : s.TargMsg ≠ -1 → 0 ≤ s.TargMsg := by
    intro hne
    obtain ⟨r, -, p, hp, -⟩ := h.target.resolve_left hne
    omega
  simp only [if_neg hd, if_neg hmsg, decrypt_msg, List.map_nil, List.nil_append]
  by_cases heq : s.TargMsg = (exp s.CurMsg s.CurKey.d s.CurKey.n).getD 0
  · obtain ⟨h0, hlt, hpow⟩ := hroot.mp heq.symm
    have hopens : Opens s := ⟨hd, hmsg, by omega, hlt, hpow⟩
    simp [← heq, hopens]
  · simp only [ne_eq, heq, not_false_eq_true, if_true, List.mem_singleton, reduceCtorEq, false_iff]
    intro ho
    exact heq (hroot.mpr ⟨hnonneg ho.target, ho.below, ho.root⟩).symm

theorem response_notMem_hold_msg (d : Draws) (s : State) : .response ∉ (hold_msg d s).1 := by
  unfold hold_msg
  split_ifs <;> cases d.m <;> cases d.dots <;> cases d.rb <;> simp

theorem response_notMem_test_decrypt_msg (s : State) : .response ∉ test_decrypt_msg s := by
  unfold test_decrypt_msg
  split <;> simp

theorem response_notMem_print_key (s : State) : .response ∉ print_key s := by
  simp [print_key, printParameter]

/-- The command of a line. -/
def Line.command (line : Line) : List UInt8 := (line.text.splitOn 0x20).headD []

/-- Only `attack` has the satellite answer. -/
theorem response_mem_handle {s : State} (line : Line) (h : Ready s) :
    .response ∈ (handle s line).1 ↔ line.command = ascii "attack" ∧ Opens s := by
  let answers (r : List Said × Option State) : Prop :=
    .response ∈ r.1 ↔ line.command = ascii "attack" ∧ Opens s
  have hquiet {r : List Said × Option State} (hc : line.command ≠ ascii "attack")
      (hr : .response ∉ r.1) : answers r :=
    iff_of_false hr fun ⟨hattack, _⟩ => hc hattack
  have hkey {c : Command} (hc : line.command ≠ ascii "attack") : answers (onKey c s) :=
    hquiet hc (by simp [onKey])
  have hne {name : List UInt8} (heq : line.command = name) (hname : name ≠ ascii "attack") :
      line.command ≠ ascii "attack" := heq.trans_ne hname
  -- the branches in the order of the `switch`
  refine iteInduction (motive := answers) (fun hempty => ?_) fun _ => ?_
  · have htext : line.text = [] := List.length_eq_zero_iff.mp hempty
    exact hquiet (by rw [Line.command, htext]; decide) (by simp)
  refine iteInduction (motive := answers) (fun heq => ?_) fun _ => ?_
  · have hcommand : line.command ≠ ascii "attack" := by
      apply heq.elim (fun heq => hne heq (by decide))
      exact fun heq => heq.elim (fun heq => hne heq (by decide)) fun heq => hne heq (by decide)
    exact hquiet hcommand (by simp)
  refine iteInduction (motive := answers) (fun heq => ?_) fun _ => ?_
  · exact hquiet (hne heq (by decide)) (by simp)
  refine iteInduction (motive := answers) (fun heq => ?_) fun _ => ?_
  · exact hquiet (hne heq (by decide)) (response_notMem_print_key s)
  refine iteInduction (motive := answers) (fun heq => hkey (hne heq (by decide))) fun _ => ?_
  refine iteInduction (motive := answers) (fun heq => ?_) fun _ => ?_
  · exact hquiet (hne heq (by decide)) (response_notMem_hold_msg _ s)
  refine iteInduction (motive := answers) (fun heq => ?_) fun _ => ?_
  · exact hquiet (hne heq (by decide)) (by unfold print_msg; split_ifs <;> simp)
  refine iteInduction (motive := answers) (fun heq => ?_) fun _ => ?_
  · exact hquiet (hne heq (by decide)) (by unfold print_target; split_ifs <;> simp)
  refine iteInduction (motive := answers) (fun heq => hkey (hne heq (by decide))) fun _ => ?_
  refine iteInduction (motive := answers) (fun heq => hkey (hne heq (by decide))) fun _ => ?_
  refine iteInduction (motive := answers) (fun heq => hkey (hne heq (by decide))) fun _ => ?_
  refine iteInduction (motive := answers) (fun heq => ?_) fun _ => ?_
  · exact hquiet (hne heq (by decide)) (response_notMem_test_decrypt_msg s)
  refine iteInduction (motive := answers) (fun heq => ?_) fun hattack => ?_
  · have hc : line.command = ascii "attack" := heq
    simp [answers, hc, attack_iff h]
  refine iteInduction (motive := answers) (fun _ => hquiet hattack (by simp)) fun _ => ?_
  exact hquiet hattack (by simp)

theorem response_mem_session (lines : List Line) {s : State} (h : Ready s) :
    .response ∈ session s lines ↔ ∃ pre line post s', lines = pre ++ line :: post ∧
      run after pre s = some s' ∧ line.command = ascii "attack" ∧ Opens s' := by
  induction lines generalizing s with
  | nil => simp [session]
  | cons line lines ih =>
    have hnow := response_mem_handle line h
    have hnext := handle_ready line h
    simp only [session, List.mem_cons, reduceCtorEq, List.mem_append, false_or]
    constructor
    · intro hmem
      apply hmem.elim
      · intro hout
        exact ⟨[], line, lines, s, rfl, rfl, hnow.mp hout⟩
      · intro hlater
        cases hs' : (handle s line).2 with
        | none => simp [hs'] at hlater
        | some t =>
          simp only [hs', Option.elim_some] at hlater
          obtain ⟨pre, line', post, s', heq, hrun, hopens⟩ := (ih (hnext t hs')).mp hlater
          refine ⟨line :: pre, line', post, s', by rw [heq]; rfl, ?_, hopens⟩
          simpa [after, hs'] using hrun
    · rintro ⟨pre, line', post, s', heq, hrun, hopens⟩
      cases pre with
      | nil =>
        cases heq
        cases hrun
        exact .inl (hnow.mpr hopens)
      | cons first pre =>
        cases heq
        obtain ⟨t, ht, hrest⟩ := Option.bind_eq_some_iff.mp hrun
        have ht' : (handle s line).2 = some t := ht
        right
        rw [ht']
        exact (ih (hnext t ht)).mpr ⟨pre, line', post, s', rfl, hrest, hopens⟩

end CtfChallenges.RsaDebugger
