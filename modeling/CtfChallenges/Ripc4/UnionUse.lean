import CtfChallenges.Ripc4.Cipher
import CtfChallenges.Ripc4.Commands

/-!
# When the union is used as it was stored

The guards keep each member in its own types of workspace. What they miss are two commands on an
encrypted workspace: `print` once there is a key, and `encrypt` of a non-empty input before.
-/

namespace CtfChallenges.Ripc4
open Framework

/-- The members that commands store in a workspace of the type. -/
def EncUnion.Suits (type : Nat) : EncUnion → Prop
  | .null => True
  | .print_encoded _ => type ≠ TYPE_ENCRYPT
  | .enc_state _ => type = TYPE_ENCRYPT

private structure Kept (ws : Workspace) : Prop where
  type : ws.type = TYPE_PLAIN ∨ ws.type = TYPE_ENCODE ∨ ws.type = TYPE_ENCRYPT
  enc : ws.enc.Suits ws.type

private theorem check_encrypt {ws : Workspace} (h : Kept ws) :
    CHECK_TYPE ws TYPE_ENCRYPT = true ↔ ws.type = TYPE_ENCRYPT := by
  obtain htype | htype | htype := h.type <;> rw [CHECK_TYPE, htype] <;> decide

private theorem start_kept {type : Option (List Int8)} {ws : Workspace}
    (h : (start type).next = some ws) : Kept ws := by
  cases type with
  | none => cases h
  | some type =>
    simp only [start] at h
    split at h
    · cases h
      exact ⟨.inl rfl, trivial⟩
    · split at h
      · cases h
        exact ⟨.inr (.inl rfl), trivial⟩
      · split at h
        · cases h
          exact ⟨.inr (.inr rfl), trivial⟩
        · cases h

private theorem set_input_kept {ws : Workspace} (h : Kept ws) (inp : Option (List Int8)) :
    Kept (set_input ws inp) := by
  have hsame : (set_input ws inp).type = ws.type ∧ (set_input ws inp).enc = ws.enc := by
    cases hbuf : ws.input_buf <;> cases inp <;> simp only [set_input, hbuf, and_self]
  constructor
  · rw [hsame.1]
    exact h.type
  · rw [hsame.1, hsame.2]
    exact h.enc

private theorem set_encoding_kept {ws ws' : Workspace} (h : Kept ws)
    (htype : ws.type ≠ TYPE_ENCRYPT) {enc : Option (List Int8)}
    (hset : (set_encoding ws enc).next = some ws') : Kept ws' := by
  cases enc with
  | none => cases hset
  | some enc =>
    simp only [set_encoding] at hset
    split at hset
    · cases hset
      exact ⟨h.type, htype⟩
    · split at hset
      · cases hset
        exact ⟨h.type, htype⟩
      · cases hset
        exact h

private theorem set_key_kept {ws : Workspace} (h : Kept ws) (htype : ws.type = TYPE_ENCRYPT)
    (key_data : Option (List Int8)) : Kept (set_key ws key_data) := by
  cases key_data with
  | none => exact h
  | some key_data =>
    simp only [set_key]
    split
    · exact h
    · split
      · exact h
      · exact ⟨h.type, htype⟩

private theorem do_encrypt_kept {ws ws' : Workspace} (h : Kept ws)
    (hrun : do_encrypt ws = some ws') : Kept ws' := by
  unfold do_encrypt at hrun
  split at hrun
  · cases hrun
    exact h
  · split at hrun
    · rename_i s buf hs hbuf
      split at hrun
      · cases hrun
        have henc := h.enc
        rw [hs] at henc
        exact ⟨h.type, henc⟩
      · cases hrun
    · cases hrun

private theorem print_state_same {ws ws' : Workspace} (h : (print_state ws).2.next = some ws') :
    ws' = ws := by
  unfold print_state at h
  split at h
  · split at h
    · cases h
      rfl
    · cases h
      rfl
    · cases h
  · split at h
    · cases hbuf : ws.input_buf with
      | none =>
        rw [hbuf] at h
        cases h
      | some buf =>
        rw [hbuf] at h
        cases h
        rfl
    · cases h
      rfl

private theorem command_kept {ws : Workspace} {r : Request} {ws' : Workspace} (h : Kept ws)
    (hrun : (command ws r).2.next = some ws') : Kept ws' := by
  unfold command at hrun
  split at hrun
  · cases hrun
  · rename_i cmd hcmd
    repeat' split at hrun
    all_goals try (cases hrun; exact h)
    · cases hrun
    · cases hrun
      exact set_input_kept h r.answer
    · rename_i htype
      apply set_encoding_kept h _ hrun
      intro heq
      exact htype ((check_encrypt h).mpr heq)
    · exact print_state_same hrun ▸ h
    · rename_i htype
      cases hrun
      apply set_key_kept h
      apply (check_encrypt h).mp
      simpa using htype
    · cases henc : do_encrypt ws with
      | none =>
        rw [henc] at hrun
        cases hrun
      | some ws'' =>
        rw [henc] at hrun
        cases hrun
        exact do_encrypt_kept h henc

/-- The pass does not print an encrypted workspace that has a key, nor encrypt a non-empty input
before there is one. -/
def UnionRespected (ws : Workspace) (r : Request) : Prop :=
  ws.type = TYPE_ENCRYPT →
    (r.cmd = some (str "print") → ws.enc = .null) ∧
    (r.cmd = some (str "encrypt") → ws.enc = .null → ws.buf_len = 0)

private theorem fits_of_suits {enc : EncUnion} (h : enc.Suits TYPE_ENCRYPT) (hnull : enc ≠ .null) :
    Use.Fits ⟨.enc_state, enc⟩ := by
  cases enc with
  | null => exact hnull rfl
  | print_encoded f => exact h rfl
  | enc_state s => trivial

private theorem print_uses {ws : Workspace} (h : Kept ws) :
    (∀ u ∈ (print_state ws).1, u.Fits) ↔ (ws.type = TYPE_ENCRYPT → ws.enc = .null) := by
  have hsuits := h.enc
  unfold print_state
  split
  · cases henc : ws.enc with
    | null => simp
    | print_encoded f =>
      rw [henc] at hsuits
      have htype : ws.type ≠ TYPE_ENCRYPT := hsuits
      simp [Use.Fits, htype]
    | enc_state s =>
      rw [henc] at hsuits
      have htype : ws.type = TYPE_ENCRYPT := hsuits
      simp [Use.Fits, htype]
  · rename_i hcheck
    have htype : ws.type ≠ TYPE_ENCRYPT := by
      intro htype
      apply hcheck
      rw [CHECK_TYPE, htype]
      decide
    split <;> simp [htype]

private theorem set_key_uses_fit {ws : Workspace} (h : Kept ws) (htype : ws.type = TYPE_ENCRYPT)
    (key_data : Option (List Int8)) : ∀ u ∈ set_key_uses ws key_data, u.Fits := by
  have hsuits := h.enc
  rw [htype] at hsuits
  intro u hu
  cases key_data with
  | none => cases hu
  | some key_data =>
    simp only [set_key_uses] at hu
    split at hu
    · cases hu
    · split at hu
      · cases hu
      · cases hu
      · rename_i hnull
        rw [List.mem_singleton] at hu
        rw [hu]
        exact fits_of_suits hsuits hnull

private theorem do_encrypt_uses_fit {ws : Workspace} (h : Kept ws)
    (htype : ws.type = TYPE_ENCRYPT) :
    (∀ u ∈ do_encrypt_uses ws, u.Fits) ↔ (ws.enc = .null → ws.buf_len = 0) := by
  have hsuits := h.enc
  rw [htype] at hsuits
  unfold do_encrypt_uses
  split
  · rename_i hzero
    simp [hzero]
  · rename_i hlen
    rw [List.forall_mem_singleton]
    constructor
    · intro hfits hnull
      rw [hnull] at hfits
      exact hfits.elim
    · intro hnull
      exact fits_of_suits hsuits fun henc => hlen (hnull henc)

private theorem command_print {ws : Workspace} {r : Request} (h : r.cmd = some (str "print")) :
    command ws r = print_state ws := by
  have hother : str "print" ≠ str "quit" ∧ str "print" ≠ str "exit" ∧
      str "print" ≠ str "set_input" ∧ str "print" ≠ str "set_encoding" := by decide
  simp [command, h, hother]

private theorem command_encrypt {ws : Workspace} {r : Request}
    (h : r.cmd = some (str "encrypt")) :
    (command ws r).1 = if CHECK_TYPE ws TYPE_ENCRYPT then do_encrypt_uses ws else [] := by
  have hother : str "encrypt" ≠ str "quit" ∧ str "encrypt" ≠ str "exit" ∧
      str "encrypt" ≠ str "set_input" ∧ str "encrypt" ≠ str "set_encoding" ∧
      str "encrypt" ≠ str "print" ∧ str "encrypt" ≠ str "set_key" := by decide
  cases hcheck : CHECK_TYPE ws TYPE_ENCRYPT <;> simp [command, h, hother, hcheck]

private theorem command_other {ws : Workspace} {r : Request} (h : Kept ws)
    (hprint : r.cmd ≠ some (str "print")) (hencrypt : r.cmd ≠ some (str "encrypt")) :
    ∀ u ∈ (command ws r).1, u.Fits := by
  unfold command
  split
  · simp
  · rename_i cmd hcmd
    rw [hcmd, ne_eq, Option.some.injEq] at hprint hencrypt
    repeat' split
    all_goals try simp only [List.not_mem_nil, false_implies, implies_true]
    rename_i htype
    apply set_key_uses_fit h
    apply (check_encrypt h).mp
    simpa using htype

private theorem command_uses {ws : Workspace} {r : Request} (h : Kept ws) :
    (∀ u ∈ (command ws r).1, u.Fits) ↔ UnionRespected ws r := by
  by_cases hprint : r.cmd = some (str "print")
  · have hne : str "print" ≠ str "encrypt" := by decide
    rw [command_print hprint, print_uses h]
    simp [UnionRespected, hprint, hne]
  · by_cases hencrypt : r.cmd = some (str "encrypt")
    · have hne : str "encrypt" ≠ str "print" := by decide
      rw [command_encrypt hencrypt]
      by_cases htype : ws.type = TYPE_ENCRYPT
      · rw [if_pos ((check_encrypt h).mpr htype), do_encrypt_uses_fit h htype]
        simp [UnionRespected, hencrypt, hne, htype]
      · rw [if_neg (fun hcheck => htype ((check_encrypt h).mp hcheck))]
        simp [UnionRespected, htype]
    · simp only [UnionRespected, hprint, hencrypt, false_implies, and_self, implies_true, iff_true]
      exact command_other h hprint hencrypt

private theorem executed_kept (type : Option (List Int8)) (rs : List Request) :
    ∀ p ∈ executed type rs, Kept p.1 := by
  intro p hp
  unfold executed at hp
  cases hstart : (start type).next with
  | none =>
    rw [hstart] at hp
    cases hp
  | some ws =>
    rw [hstart] at hp
    exact visited_invariant (fun _ _ _ => command_kept) rs (start_kept hstart) p hp

/-- In a run of the program every access to the union is to the member stored last exactly when no
pass prints an encrypted workspace that has a key or encrypts a non-empty input without one. -/
theorem uses_fit_iff (type : Option (List Int8)) (rs : List Request) :
    (∀ u ∈ uses type rs, u.Fits) ↔ ∀ p ∈ executed type rs, UnionRespected p.1 p.2 := by
  have hkept := executed_kept type rs
  constructor
  · intro h p hp
    apply (command_uses (hkept p hp)).mp
    intro u hu
    exact h u (List.mem_flatMap.mpr ⟨p, hp, hu⟩)
  · intro h u hu
    obtain ⟨p, hp, hu⟩ := List.mem_flatMap.mp hu
    exact (command_uses (hkept p hp)).mpr (h p hp) u hu

/-- With the key `4b`, printing calls through a pointer to the state of the cipher. -/
theorem print_calls_enc_state :
    ¬ ∀ u ∈ uses (some (str "encrypted"))
      [⟨some (str "set_key"), some (str "4b")⟩, ⟨some (str "print"), none⟩], u.Fits := by
  have hspells : Spells (str "4b") [0x4b] :=
    @Spells.cons 0x34 0x62 4 11 [] [] (by decide) (by decide) .nil
  obtain ⟨s, hset, -⟩ :=
    set_key_spells hspells (by decide) (by decide) ⟨TYPE_ENCRYPT, none, 0, .null⟩
  have hset_key : command ⟨TYPE_ENCRYPT, none, 0, .null⟩ ⟨some (str "set_key"), some (str "4b")⟩ =
      ([], .running ⟨TYPE_ENCRYPT, none, 0, .enc_state s⟩) := by
    rw [← hset]
    rfl
  have hprint : command ⟨TYPE_ENCRYPT, none, 0, .enc_state s⟩ ⟨some (str "print"), none⟩ =
      ([⟨.print_encoded, .enc_state s⟩], .crashed) := by
    rw [command_print rfl, print_state, if_pos (by simp [CHECK_TYPE, TYPE_ENCRYPT, TYPE_ENCODE])]
  have hstart : start (some (str "encrypted")) = .running ⟨TYPE_ENCRYPT, none, 0, .null⟩ := rfl
  intro h
  apply h ⟨.print_encoded, .enc_state s⟩
  rw [uses, executed, hstart]
  simp [Outcome.next, visited, hset_key, hprint]

end CtfChallenges.Ripc4
