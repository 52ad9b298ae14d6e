import CtfChallenges.Hashpop.Form

/-!
# Parsing a form

The fields of a body, their names and values, and what the parser makes of them. Two things go wrong:
the tenth field is refused, and an ampersand at the front of the body hides the first.
-/

namespace CtfChallenges.Hashpop
open Framework CString

/-- A body: fields with one or more ampersands between them, and any number at both ends. -/
inductive Body : List (List UInt8) → List UInt8 → Prop
  | nil : Body [] []
  | ampersand {fs : List (List UInt8)} {t : List UInt8} : Body fs t → Body fs (ampersand :: t)
  | last {f : List UInt8} : f ≠ [] → ampersand ∉ f → Body [f] f
  | field {f : List UInt8} {fs : List (List UInt8)} {t : List UInt8} :
      f ≠ [] → ampersand ∉ f → Body fs t → Body (f :: fs) (f ++ ampersand :: t)

/-- The value of a field, decoded, if this is its name. A decoded name ends at its first zero. -/
def ownValue (name f : List UInt8) : Option (List UInt8) :=
  if equals ∈ f ∧ (decoded (f.takeWhile (· ≠ equals))).takeWhile (· ≠ 0) = name then
    some (decoded (f.dropWhile (· ≠ equals)).tail)
  else none

/-- The value of the last field of this name. -/
def valueOf (name : List UInt8) (fs : List (List UInt8)) : Option (List UInt8) :=
  (fs.filterMap (ownValue name)).getLast?

variable {P : Type}

/-- The pointer leads to the value in the buffer. Without a value it is the one from before. -/
def PointsTo (mem : Mem) (old : P) (q : P ⊕ Nat) : Option (List UInt8) → Prop
  | none => q = .inl old
  | some v => ∃ p, q = .inr p ∧ v ++ [0] <+: mem.drop p

/-- The parser stays in its blocks. Up to the limit of fields it returns 0, with the last value of each
name or the old one. A body of more fields is refused. -/
def ParsesForm (h : HashRunner P) (buf : Mem) (fs : List (List UInt8)) : Prop :=
  ∃ rv form, parse_request (some Fields.cleared) h buf = some (rv, form) ∧
    (fs.length ≤ MAX_FIELDS → rv = 0 ∧
      PointsTo form.mem h.op_format form.runner.op_format (valueOf (ascii "output") fs) ∧
      PointsTo form.mem h.hash_name form.runner.hash_name (valueOf (ascii "hash") fs) ∧
      PointsTo form.mem h.input form.runner.input (valueOf (ascii "input") fs) ∧
      form.runner.input_len =
        ((valueOf (ascii "input") fs).map List.length).getD h.input_len) ∧
    (MAX_FIELDS < fs.length → rv ≠ 0)

/-- There are not ten fields. If there are fewer and the body starts with an ampersand, then the first
is none of the three that count, or a later one has its name. -/
def FormFits (text : List UInt8) (fs : List (List UInt8)) : Prop :=
  fs.length ≠ MAX_FIELDS ∧
    (fs.length < MAX_FIELDS → text.head? = some ampersand → ∀ f, fs.head? = some f →
      ∀ name ∈ [ascii "output", ascii "hash", ascii "input"],
        ownValue name f ≠ none → valueOf name fs.tail ≠ none)

/-! ## Tokens -/

section
variable {mem : Mem} {p n : Nat} {f t : List UInt8} {fs : List (List UInt8)} {fields : Fields}

theorem Body.eq_nil (h : Body [] t) : ∀ c ∈ t, c = Hashpop.ampersand := by
  generalize hfs : ([] : List (List UInt8)) = gs at h
  induction h with
  | nil => simp
  | ampersand _ ih => simpa using ih hfs
  | last => cases hfs
  | field => cases hfs

/-- Behind the ampersands at its front a body has its first field, and then another body. -/
theorem Body.eq_cons (h : Body (f :: fs) t) :
    f ≠ [] ∧ Hashpop.ampersand ∉ f ∧ ∃ front, (∀ c ∈ front, c = Hashpop.ampersand) ∧
      (fs = [] ∧ t = front ++ f ∨
        ∃ t', t = front ++ (f ++ Hashpop.ampersand :: t') ∧ Body fs t') := by
  generalize hfs : f :: fs = gs at h
  induction h with
  | nil => cases hfs
  | ampersand _ ih =>
    obtain ⟨hne, hf, front, hfront, hrest⟩ := ih hfs
    refine ⟨hne, hf, Hashpop.ampersand :: front, by simpa using hfront, ?_⟩
    rcases hrest with ⟨hnil, rfl⟩ | ⟨t', rfl, hbody⟩
    · exact .inl ⟨hnil, rfl⟩
    · exact .inr ⟨t', rfl, hbody⟩
  | last hne hf =>
    cases hfs
    exact ⟨hne, hf, [], by simp, .inl ⟨rfl, rfl⟩⟩
  | @field _ _ t hne hf hbody _ =>
    cases hfs
    exact ⟨hne, hf, [], by simp, .inr ⟨t, rfl, hbody⟩⟩

theorem strtok_nil (hbody : Body [] t) (h : StringAt mem p t) :
    ∃ saved, strtok mem p ampersand = some (none, mem, saved) := by
  refine ⟨p + (t.takeWhile (· = ampersand)).length, ?_⟩
  have hdrop : t.dropWhile (· = ampersand) = [] := by simpa using hbody.eq_nil
  rw [strtok, cstr_eq_some h]
  simp [hdrop]

/-- `strtok` makes a string of the next field, and goes on behind it. With the ampersands at the front
this is a string as well. -/
theorem strtok_cons (hbody : Body (f :: fs) t) (h : StringAt mem p t) :
    ∃ mem' saved front t', strtok mem p ampersand = some (some (p + front.length), mem', saved) ∧
      (front ++ f).head? = t.head? ∧ (∀ c ∈ front, c = ampersand) ∧
      StringAt mem' p (front ++ f) ∧ StringAt mem' saved t' ∧ Body fs t' ∧
      mem'.take p = mem.take p ∧ p + (front ++ f).length ≤ saved ∧
      (fs = [] ∨ p + (front ++ f).length + 1 ≤ saved) := by
  obtain ⟨hne, hf, front, hfront, hrest⟩ := hbody.eq_cons
  have hhead : ∀ u, (front ++ (f ++ u)).head? = (front ++ f).head? := by
    intro u
    rw [← List.append_assoc, List.head?_append_of_ne_nil _ (by simp [hne])]
  rcases hrest with ⟨rfl, rfl⟩ | ⟨t', rfl, hbody'⟩
  · have hend := StringAt.drop (s := []) (t := front ++ f) (by simpa using h)
    refine ⟨mem, p + front.length + f.length, front, [], strtok_last h hfront hne hf, rfl, hfront, h,
      by simpa [Nat.add_assoc] using hend, .nil, rfl, by simp [Nat.add_assoc], .inl rfl⟩
  · have hlen := h.length_lt
    have hcut := StringAt.cut (s := front ++ f) (by simpa using h)
    rw [List.length_append, ← Nat.add_assoc] at hcut
    simp only [List.length_append, List.length_cons] at hlen
    refine ⟨_, _, front, t', strtok_cut h hfront hne hf, (hhead _).symm, hfront, hcut.1, hcut.2,
      hbody', take_overwrite (by omega) (by omega), ?_, .inr ?_⟩
    · rw [List.length_append]
      omega
    · rw [List.length_append]
      omega

/-- Strings one behind the other, from `p` on. -/
def Laid (mem : Mem) : Nat → List (Nat × List UInt8) → Prop
  | _, [] => True
  | p, (k, f) :: ks => p ≤ k ∧ StringAt mem k f ∧ Laid mem (k + f.length + 1) ks

theorem Laid.congr {mem' : Mem} {ks : List (Nat × List UInt8)} (h : Laid mem p ks)
    (hdrop : mem'.drop p = mem.drop p) : Laid mem' p ks := by
  induction ks generalizing p with
  | nil => trivial
  | cons kf ks ih =>
    obtain ⟨hle, hstring, hrest⟩ := h
    have hdrop' : ∀ q, p ≤ q → mem'.drop q = mem.drop q := by
      intro q hq
      have hsplit : q = p + (q - p) := by omega
      rw [hsplit, ← List.drop_drop, hdrop, List.drop_drop]
    exact ⟨hle, hstring.congr (hdrop' _ hle), ih hrest (hdrop' _ (by omega))⟩

theorem Laid.mono {ks : List (Nat × List UInt8)} {q : Nat} (h : Laid mem p ks) (hq : q ≤ p) :
    Laid mem q ks := by
  cases ks with
  | nil => trivial
  | cons kf ks => exact ⟨hq.trans h.1, h.2⟩

/-- The next token lies in front of those that the loop finds behind it. -/
theorem Laid.cons {mem' : Mem} {saved : Nat} {ks : List (Nat × List UInt8)}
    (hfield : StringAt mem p f) (hlast : fs = [] ∨ p + f.length + 1 ≤ saved)
    (htake : mem'.take saved = mem.take saved) (hsame : fs = [] → mem' = mem)
    (hks : ks.map Prod.snd = fs) (hlaid : Laid mem' saved ks) : Laid mem' p ((p, f) :: ks) := by
  rcases hlast with hnil | hle
  · rw [hnil, List.map_eq_nil_iff] at hks
    rw [hks, hsame hnil]
    exact ⟨Nat.le_refl _, hfield, trivial⟩
  · exact ⟨Nat.le_refl _, hfield.of_take hle htake, hlaid.mono hle⟩

theorem setKey_eq (h : n < MAX_FIELDS) (key : Nat) :
    setKey fields n key = some (fields.set n (some key)) := by
  rw [setKey, dif_pos h]

theorem scanFields_nil (hbody : Body [] t) (h : StringAt mem p t) (hn : n < MAX_FIELDS) :
    scanFields mem p fields n = some (.fields mem fields n) := by
  obtain ⟨saved, htok⟩ := strtok_nil hbody h
  rw [scanFields, dif_neg (by omega)]
  simp [htok]

/-- With more tokens than there is room for, the loop gives up at the limit. -/
theorem scanFields_refused (hbody : Body fs t) (h : StringAt mem p t) (hn : n ≤ MAX_FIELDS)
    (hfull : MAX_FIELDS ≤ n + fs.length) :
    ∃ mem', scanFields mem p fields n = some (.refused mem') := by
  induction fs generalizing mem p t n fields with
  | nil =>
    rw [scanFields, dif_pos (by simpa using hfull)]
    exact ⟨mem, rfl⟩
  | cons f fs ih =>
    rw [List.length_cons] at hfull
    rcases Nat.lt_or_ge n MAX_FIELDS with hlt | hroom
    · obtain ⟨mem₁, saved, front, t', htok, -, -, -, hstring, hbody', -⟩ := strtok_cons hbody h
      obtain ⟨mem', hscan⟩ := @ih mem₁ saved (n + 1) t' (fields.set n (some (p + front.length)))
        hbody' hstring hlt (by omega)
      refine ⟨mem', ?_⟩
      rw [scanFields, dif_neg (by omega)]
      simp [htok, setKey_eq hlt, hscan]
    · rw [scanFields, dif_pos hroom]
      exact ⟨mem, rfl⟩

/-- With room for all tokens, the loop makes a string of each field and keeps where they start. -/
theorem scanFields_fields (hbody : Body fs t) (h : StringAt mem p t)
    (hroom : n + fs.length < MAX_FIELDS) :
    ∃ mem' fields' ks, scanFields mem p fields n = some (.fields mem' fields' (n + fs.length)) ∧
      ks.map Prod.snd = fs ∧ Laid mem' p ks ∧ mem'.take p = mem.take p ∧
      fields'.toList.take (n + fs.length) = fields.toList.take n ++ ks.map (some ∘ Prod.fst) ∧
      (fs = [] → mem' = mem) := by
  induction fs generalizing mem p t n fields with
  | nil =>
    exact ⟨mem, fields, [], scanFields_nil hbody h hroom, rfl, trivial, rfl, by simp, fun _ => rfl⟩
  | cons f fs ih =>
    rw [List.length_cons] at hroom
    obtain ⟨mem₁, saved, front, t', htok, -, -, hfield, hstring, hbody', htake, hle, hlast⟩ :=
      strtok_cons hbody h
    obtain ⟨mem', fields', ks, hscan, hks, hlaid, htake', hkeys, hsame⟩ :=
      @ih mem₁ saved (n + 1) t' (fields.set n (some (p + front.length))) hbody' hstring (by omega)
    rw [List.length_append, ← Nat.add_assoc] at hle hlast
    have hlaid' := Laid.cons hfield.drop hlast htake' hsame hks hlaid
    have hn : n < fields.toList.length := by
      rw [Vector.length_toList]
      omega
    refine ⟨mem', fields', (p + front.length, f) :: ks, ?_, by simp [hks],
      hlaid'.mono (Nat.le_add_right _ _), ?_, ?_, by simp⟩
    · rw [scanFields, dif_neg (by omega)]
      simp only [htok, setKey_eq (show n < MAX_FIELDS by omega), hscan, List.length_cons]
      congr 2
      omega
    · have hmin : min p saved = p := by omega
      rw [← htake, ← hmin, ← List.take_take, htake', List.take_take]
    · rw [List.length_cons, ← Nat.add_assoc, Nat.add_right_comm, hkeys, Vector.toList_set,
        List.take_set, List.take_succ_eq_append_getElem hn]
      have hmin : min n MAX_FIELDS = n := by omega
      simp [hmin]

end

/-! ## Fields -/

/-- The pointer leads to the value, which ends before `lim`. -/
def PointsBelow (mem : Mem) (lim : Nat) (old : P) (q : P ⊕ Nat) : Option (List UInt8) → Prop
  | none => q = .inl old
  | some v => ∃ p, q = .inr p ∧ v ++ [0] <+: mem.drop p ∧ p + v.length + 1 ≤ lim

/-- The second loop after the fields `fs`, which end before `lim`. -/
structure Handled (h : HashRunner P) (lim : Nat) (fs : List (List UInt8)) (st : Parsing P) :
    Prop where
  output : PointsBelow st.mem lim h.op_format st.runner.op_format (valueOf (ascii "output") fs)
  hash : PointsBelow st.mem lim h.hash_name st.runner.hash_name (valueOf (ascii "hash") fs)
  input : PointsBelow st.mem lim h.input st.runner.input (valueOf (ascii "input") fs)
  input_len : st.runner.input_len =
    ((valueOf (ascii "input") fs).map List.length).getD h.input_len

section
variable {mem mem' : Mem} {lim lim' p : Nat} {old : P} {q : P ⊕ Nat} {v : Option (List UInt8)}
  {name f : List UInt8} {fs : List (List UInt8)}

theorem PointsBelow.pointsTo (h : PointsBelow mem lim old q v) : PointsTo mem old q v := by
  cases v with
  | none => exact h
  | some v =>
    obtain ⟨p, hq, hpre, -⟩ := h
    exact ⟨p, hq, hpre⟩

theorem PointsBelow.of_take (h : PointsBelow mem lim old q v) (htake : mem'.take lim = mem.take lim)
    (hlim : lim ≤ lim') : PointsBelow mem' lim' old q v := by
  cases v with
  | none => exact h
  | some v =>
    obtain ⟨p, hq, hpre, hle⟩ := h
    exact ⟨p, hq, prefix_of_take hpre (by simpa [← Nat.add_assoc] using hle) htake, hle.trans hlim⟩

theorem valueOf_append (name f : List UInt8) (fs : List (List UInt8)) :
    valueOf name (fs ++ [f]) = (ownValue name f).or (valueOf name fs) := by
  rw [valueOf, List.filterMap_append, List.filterMap_cons, List.filterMap_nil]
  cases ownValue name f <;> simp [valueOf]

theorem ownValue_of_not_mem (h : equals ∉ f) (name : List UInt8) : ownValue name f = none := by
  rw [ownValue, if_neg (fun hf => h hf.1)]

theorem ownValue_split {key value : List UInt8} (h : equals ∉ key) (name : List UInt8) :
    ownValue name (key ++ equals :: value) =
      if (decoded key).takeWhile (· ≠ 0) = name then some (decoded value) else none := by
  have hdrop : (key ++ equals :: value).dropWhile (· ≠ equals) = equals :: value := by
    rw [List.dropWhile_append_of_pos, List.dropWhile_cons_of_neg (by simp)]
    rw [← List.takeWhile_eq_self_iff]
    exact takeWhile_ne h
  simp only [ownValue, takeWhile_ne_append h, hdrop, List.tail_cons]
  simp

/-- The runner after a field: the value goes where the name says. -/
def HashRunner.assign (r : HashRunner (P ⊕ Nat)) (name : List UInt8) (val len : Nat) :
    HashRunner (P ⊕ Nat) where
  op_format := if name = ascii "output" then .inr val else r.op_format
  hash_name := if name = ascii "hash" then .inr val else r.hash_name
  input := if name = ascii "input" then .inr val else r.input
  input_len := if name = ascii "input" then len else r.input_len

/-- A slot after one more field: the field's own value, or what was there. -/
theorem PointsBelow.append {key value : List UInt8} {val : Nat} (hkey : equals ∉ key)
    (h : PointsBelow mem lim old q (valueOf name fs)) (htake : mem'.take lim = mem.take lim)
    (hlim : lim ≤ lim') (hval : decoded value ++ [0] <+: mem'.drop val)
    (hle : val + (decoded value).length + 1 ≤ lim') :
    PointsBelow mem' lim' old
      (if (decoded key).takeWhile (· ≠ 0) = name then .inr val else q)
      (valueOf name (fs ++ [key ++ equals :: value])) := by
  rw [valueOf_append, ownValue_split hkey]
  by_cases hname : (decoded key).takeWhile (· ≠ 0) = name
  · rw [if_pos hname, if_pos hname, Option.some_or]
    exact ⟨val, rfl, hval, hle⟩
  · rw [if_neg hname, if_neg hname, Option.none_or]
    exact h.of_take htake hlim

/-- The name and the value become strings of their own, and each is decoded in its place. -/
theorem decode_field {key value : List UInt8} (h : StringAt mem p (key ++ equals :: value)) :
    ∃ mem₁ c c' n, store mem (p + key.length) 0 = some mem₁ ∧ urldecode mem₁ p = some (c, n) ∧
      urldecode c.mem (p + key.length + 1) = some (c', (decoded value).length) ∧
      cstr c'.mem p = some ((decoded key).takeWhile (· ≠ 0)) ∧
      decoded value ++ [0] <+: c'.mem.drop (p + key.length + 1) ∧
      c'.mem.take p = mem.take p ∧
      c'.mem.drop (p + (key ++ equals :: value).length + 1) =
        mem.drop (p + (key ++ equals :: value).length + 1) := by
  have hlen := h.length_lt
  rw [List.length_append, List.length_cons] at hlen ⊢
  have hkey := length_decoded key
  have hvalue := length_decoded value
  obtain ⟨hname, hval⟩ := h.cut
  have hstore := store_eq (show p + key.length < mem.length by omega) 0
  have hcut : (overwrite mem (p + key.length) [0]).length = mem.length :=
    length_overwrite (by simp; omega)
  obtain ⟨c, hrun, hc, -⟩ := urldecode_eq hname
  have hval' : StringAt c.mem (p + key.length + 1) value := by
    refine hval.congr ?_
    rw [hc, drop_overwrite (by omega) (by simp; omega)]
  have hclen : c.mem.length = mem.length := by
    rw [hc, length_overwrite (by simp; omega), hcut]
  obtain ⟨c', hrun', hc', -⟩ := urldecode_eq hval'
  refine ⟨_, c, c', _, hstore, hrun, hrun', ?_, ?_, ?_, ?_⟩
  · have hpre : decoded key ++ [0] <+: c'.mem.drop p := by
      have hpre' : decoded key ++ [0] <+: c.mem.drop p := by
        rw [hc, drop_overwrite_self (by omega)]
        exact List.prefix_append _ _
      have htake : c'.mem.take (p + key.length + 1) = c.mem.take (p + key.length + 1) := by
        rw [hc', take_overwrite (by omega) (Nat.le_refl _)]
      exact prefix_of_take hpre' (by simp; omega) htake
    obtain ⟨rest, hrest⟩ := hpre
    apply cstr_of_drop
    rw [← hrest, List.append_assoc]
    rfl
  · rw [hc', drop_overwrite_self (by omega)]
    exact List.prefix_append _ _
  · rw [hc', take_overwrite (by omega) (by omega), hc, take_overwrite (by omega) (Nat.le_refl _),
      take_overwrite (by omega) (by omega)]
  · rw [hc', drop_overwrite (by omega) (by simp; omega), hc, drop_overwrite (by omega) (by simp; omega),
      drop_overwrite (by omega) (by simp)]

theorem handleField_split {key value : List UInt8} {st : Parsing P} (hkey : equals ∉ key)
    (h : StringAt st.mem p (key ++ equals :: value)) :
    ∃ st', handleField st (some p) = some st' ∧
      st'.runner = st.runner.assign ((decoded key).takeWhile (· ≠ 0)) (p + key.length + 1)
        (decoded value).length ∧
      decoded value ++ [0] <+: st'.mem.drop (p + key.length + 1) ∧
      st'.mem.take p = st.mem.take p ∧
      st'.mem.drop (p + (key ++ equals :: value).length + 1) =
        st.mem.drop (p + (key ++ equals :: value).length + 1) := by
  obtain ⟨mem₁, c, c', n, hstore, hrun, hrun', hname, hval, htake, hdrop⟩ := decode_field h
  generalize (decoded key).takeWhile (· ≠ 0) = name at hname ⊢
  have hinput : ascii "input" ≠ ascii "output" := by decide
  have hhash : ascii "hash" ≠ ascii "output" ∧ ascii "hash" ≠ ascii "input" := by decide
  simp only [handleField, strchr_split h hkey, hstore, hrun, hrun', hname, Option.bind_eq_bind,
    Option.bind_some]
  split_ifs with houtput hinput' hhash' hblog
  · exact ⟨_, rfl, by simp [HashRunner.assign, houtput, hinput.symm, hhash.1.symm], hval, htake, hdrop⟩
  · exact ⟨_, rfl, by simp [HashRunner.assign, hinput', hinput, hhash.2.symm], hval, htake, hdrop⟩
  · exact ⟨_, rfl, by simp [HashRunner.assign, hhash', hhash], hval, htake, hdrop⟩
  · exact ⟨_, rfl, by simp [HashRunner.assign, houtput, hinput', hhash'], hval, htake, hdrop⟩
  · exact ⟨_, rfl, by simp [HashRunner.assign, houtput, hinput', hhash'], hval, htake, hdrop⟩

theorem Handled.keep {h : HashRunner P} {st : Parsing P} (hst : Handled h lim fs st)
    (hf : equals ∉ f) (hlim : lim ≤ lim') : Handled h lim' (fs ++ [f]) st := by
  have hvalue : ∀ name, valueOf name (fs ++ [f]) = valueOf name fs := by
    intro name
    rw [valueOf_append, ownValue_of_not_mem hf, Option.none_or]
  constructor
  · rw [hvalue]
    exact hst.output.of_take rfl hlim
  · rw [hvalue]
    exact hst.hash.of_take rfl hlim
  · rw [hvalue]
    exact hst.input.of_take rfl hlim
  · rw [hvalue]
    exact hst.input_len

theorem handleField_handled {h : HashRunner P} {st : Parsing P} (hst : Handled h lim fs st)
    (hlim : lim ≤ p) (hf : StringAt st.mem p f) :
    ∃ st', handleField st (some p) = some st' ∧ Handled h (p + f.length + 1) (fs ++ [f]) st' ∧
      st'.mem.drop (p + f.length + 1) = st.mem.drop (p + f.length + 1) := by
  by_cases hmem : equals ∈ f
  · obtain ⟨key, value, rfl, hkey⟩ := List.eq_append_cons_of_mem hmem
    obtain ⟨st', hrun, hrunner, hval, htake, hdrop⟩ := handleField_split hkey hf
    have htake' : st'.mem.take lim = st.mem.take lim := by
      rw [← Nat.min_eq_left hlim, ← List.take_take, htake, List.take_take]
    have hvalue := length_decoded value
    have hlen : (key ++ equals :: value).length = key.length + value.length + 1 := by simp; omega
    have hle : p + key.length + 1 + (decoded value).length + 1 ≤
      p + (key ++ equals :: value).length + 1 := by omega
    have hlim' : lim ≤ p + (key ++ equals :: value).length + 1 := by omega
    refine ⟨st', hrun, ?_, hdrop⟩
    constructor
    · rw [hrunner]
      exact hst.output.append hkey htake' hlim' hval hle
    · rw [hrunner]
      exact hst.hash.append hkey htake' hlim' hval hle
    · rw [hrunner]
      exact hst.input.append hkey htake' hlim' hval hle
    · rw [hrunner, valueOf_append, ownValue_split hkey]
      by_cases hname : (decoded key).takeWhile (· ≠ 0) = ascii "input"
      · simp only [HashRunner.assign, if_pos hname]
        rfl
      · simp only [HashRunner.assign, if_neg hname, Option.none_or]
        exact hst.input_len
  · refine ⟨st, ?_, hst.keep hmem (by omega), rfl⟩
    simp [handleField, strchr_of_not_mem hf hmem]

/-- The second loop over strings one behind the other. -/
theorem foldlM_handled {h : HashRunner P} {ks : List (Nat × List UInt8)} {st : Parsing P}
    (hst : Handled h lim fs st) (hlaid : Laid st.mem lim ks) :
    ∃ st', (ks.map (some ∘ Prod.fst)).foldlM handleField st = some st' ∧
      ∃ lim', Handled h lim' (fs ++ ks.map Prod.snd) st' := by
  induction ks generalizing lim fs st with
  | nil => exact ⟨st, rfl, lim, by simpa using hst⟩
  | cons kf ks ih =>
    obtain ⟨k, f⟩ := kf
    obtain ⟨hle, hstring, hrest⟩ := hlaid
    obtain ⟨st₁, hpass, hst₁, hdrop⟩ := handleField_handled hst hle hstring
    obtain ⟨st', hloop, lim', hst'⟩ := ih hst₁ (hrest.congr hdrop)
    refine ⟨st', ?_, lim', by simpa using hst'⟩
    simp [hpass, hloop]

end

/-! ## The form -/

/-- The fields whose names the parser sees as they are. -/
def visible (text : List UInt8) (fs : List (List UInt8)) : List (List UInt8) :=
  if text.head? = some ampersand then fs.tail else fs

section
variable {mem buf : Mem} {old : P} {q : P ⊕ Nat} {v v' : Option (List UInt8)}
  {name f text : List UInt8} {fs : List (List UInt8)}

theorem PointsTo.isSome_eq (hv : PointsTo mem old q v) (hv' : PointsTo mem old q v') :
    v.isSome = v'.isSome := by
  cases v with
  | none =>
    cases v' with
    | none => rfl
    | some v' =>
      obtain ⟨p, hq, -⟩ := hv'
      cases hv.symm.trans hq
  | some v =>
    obtain ⟨p, hq, -⟩ := hv
    cases v' with
    | none => cases hv'.symm.trans hq
    | some v' => rfl

theorem valueOf_cons (name f : List UInt8) (fs : List (List UInt8)) :
    valueOf name (f :: fs) = (valueOf name fs).or (ownValue name f) := by
  rw [valueOf, List.filterMap_cons]
  cases ownValue name f <;> simp [valueOf, List.getLast?_cons]

/-- A name that starts with an ampersand is none that counts. -/
theorem ownValue_ampersand (hname : name.head? ≠ some ampersand) (f : List UInt8) :
    ownValue name (ampersand :: f) = none := by
  have hkey : (ampersand :: f).takeWhile (· ≠ equals) = ampersand :: f.takeWhile (· ≠ equals) :=
    List.takeWhile_cons_of_pos (by decide)
  have hdecoded : ∀ g, decoded (ampersand :: g) = ampersand :: decoded g := by
    intro g
    rw [decoded.eq_def]
    rfl
  rw [ownValue, hkey, hdecoded, List.takeWhile_cons_of_pos (by decide), if_neg]
  rintro ⟨-, rfl⟩
  exact hname rfl

/-- What becomes of the first field with the bytes in front of it. -/
theorem valueOf_front {front : List UInt8} (hname : name.head? ≠ some ampersand)
    (hbody : Body (f :: fs) text) (hfront : ∀ c ∈ front, c = ampersand)
    (hhead : (front ++ f).head? = text.head?) :
    valueOf name ((front ++ f) :: fs) = valueOf name (visible text (f :: fs)) := by
  obtain ⟨hne, hf, -⟩ := hbody.eq_cons
  cases front with
  | nil =>
    have hvisible : text.head? ≠ some ampersand := by
      intro hamp
      rw [← hhead, List.nil_append] at hamp
      exact hf (List.mem_of_mem_head? hamp)
    rw [visible, if_neg hvisible, List.nil_append]
  | cons c front =>
    have hc : c = ampersand := hfront c List.mem_cons_self
    subst hc
    have hvisible : text.head? = some ampersand := hhead.symm
    rw [visible, if_pos hvisible, valueOf_cons, List.cons_append, ownValue_ampersand hname,
      Option.or_none, List.tail_cons]

/-- A body of fewer than ten fields is parsed, and the visible fields are the ones that count. -/
theorem parse_request_fields (h : HashRunner P) (hbody : Body fs text) (hbuf : StringAt buf 0 text)
    (hroom : fs.length < MAX_FIELDS) :
    ∃ form, parse_request (some Fields.cleared) h buf = some (0, form) ∧
      ∃ lim fs', Handled h lim fs' form ∧
        ∀ name, name.head? ≠ some ampersand → valueOf name fs' = valueOf name (visible text fs) := by
  have hstart : ∀ mem, Handled h 0 [] ⟨mem, h.before, []⟩ := fun mem => ⟨rfl, rfl, rfl, rfl⟩
  have hkey : setKey Fields.cleared 0 0 = some (Fields.cleared.set 0 (some 0)) :=
    setKey_eq (by decide) 0
  have hfirst : (Fields.cleared.set 0 (some 0)).toList.take 1 = [some 0] := rfl
  cases fs with
  | nil =>
    obtain ⟨saved, htok⟩ := strtok_nil hbody hbuf
    have heq : equals ∉ text := by
      intro hmem
      have hamp := hbody.eq_nil equals hmem
      cases hamp
    obtain ⟨form, hpass, hform, -⟩ := handleField_handled (hstart buf) (Nat.le_refl _) hbuf
    refine ⟨form, ?_, _, [text], hform, ?_⟩
    · simp only [parse_request, hkey, htok, Option.bind_eq_bind, Option.bind_some, hfirst]
      simp [hpass]
    · intro name _
      simp [visible, valueOf, ownValue_of_not_mem heq]
  | cons f fs =>
    obtain ⟨mem₁, saved, front, t', htok, hhead, hfront, hfield, hstring, hbody', -, -, hlast⟩ :=
      strtok_cons hbody hbuf
    obtain ⟨mem', fields', ks, hscan, hks, hlaid, htake, hkeys, hsame⟩ :=
      @scanFields_fields mem₁ saved 1 t' fs (Fields.cleared.set 0 (some 0)) hbody' hstring
        (by simpa [Nat.add_comm] using hroom)
    rw [Nat.zero_add] at hlast
    have hlaid' := Laid.cons hfield (by simpa using hlast) htake hsame hks hlaid
    obtain ⟨form, hloop, lim, hform⟩ := foldlM_handled (hstart mem') hlaid'
    refine ⟨form, ?_, lim, _, hform, ?_⟩
    · simp only [List.map_cons, Function.comp] at hloop
      simp only [parse_request, hkey, htok, hscan, Option.bind_eq_bind, Option.bind_some, hkeys, hfirst,
        List.singleton_append, hloop]
      rfl
    · intro name hname
      simp only [List.nil_append, List.map_cons, hks]
      exact valueOf_front hname hbody hfront hhead

theorem parse_request_refused (h : HashRunner P) (hbody : Body fs text) (hbuf : StringAt buf 0 text)
    (hfull : MAX_FIELDS ≤ fs.length) :
    ∃ form, parse_request (some Fields.cleared) h buf = some (1, form) := by
  cases fs with
  | nil => cases hfull
  | cons f fs =>
    obtain ⟨mem, saved, front, t', htok, -, -, -, hstring, hbody', -⟩ := strtok_cons hbody hbuf
    obtain ⟨mem', hscan⟩ := @scanFields_refused mem saved 1 t' fs (Fields.cleared.set 0 (some 0))
      hbody' hstring (by decide) (by simpa [Nat.add_comm] using hfull)
    refine ⟨⟨mem', h.before, []⟩, ?_⟩
    simp [parse_request, setKey_eq (show 0 < MAX_FIELDS by decide), htok, hscan]

theorem valueOf_visible (hfits : FormFits text fs) (hroom : fs.length < MAX_FIELDS)
    (hname : name ∈ [ascii "output", ascii "hash", ascii "input"]) :
    valueOf name (visible text fs) = valueOf name fs := by
  rw [visible]
  split_ifs with hamp
  · cases fs with
    | nil => rfl
    | cons f fs =>
      have hlater := hfits.2 hroom hamp f rfl name hname
      rw [List.tail_cons] at hlater ⊢
      rw [valueOf_cons]
      cases hvalue : valueOf name fs with
      | some v => rfl
      | none =>
        rw [Option.none_or]
        by_contra hne
        exact hlater (Ne.symm hne) hvalue
  · rfl

theorem head_ne_ampersand
    (hname : name ∈ [ascii "output", ascii "hash", ascii "input"]) :
    name.head? ≠ some ampersand := by
  revert name
  decide

theorem FormFits.parsesForm (h : HashRunner P) (hbody : Body fs text) (hbuf : StringAt buf 0 text)
    (hfits : FormFits text fs) : ParsesForm h buf fs := by
  rcases Nat.lt_or_ge fs.length MAX_FIELDS with hroom | hfull
  · obtain ⟨form, hparse, lim, fs', hform, hvalue⟩ := parse_request_fields h hbody hbuf hroom
    have hsame : ∀ name ∈ [ascii "output", ascii "hash", ascii "input"],
        valueOf name fs' = valueOf name fs := fun name hname =>
      (hvalue name (head_ne_ampersand hname)).trans (valueOf_visible hfits hroom hname)
    have houtput := hform.output.pointsTo
    have hhash := hform.hash.pointsTo
    have hinput := hform.input.pointsTo
    have hlen := hform.input_len
    rw [hsame _ (by simp)] at houtput hhash hinput hlen
    exact ⟨0, form, hparse, fun _ => ⟨rfl, houtput, hhash, hinput, hlen⟩, fun hmany => by omega⟩
  · obtain ⟨form, hparse⟩ := parse_request_refused h hbody hbuf hfull
    have hne := hfits.1
    exact ⟨1, form, hparse, fun hle => by omega, fun _ => by decide⟩

theorem ParsesForm.formFits (h : HashRunner P) (hbody : Body fs text) (hbuf : StringAt buf 0 text)
    (hparses : ParsesForm h buf fs) : FormFits text fs := by
  obtain ⟨rv, form, hparse, hvalues, -⟩ := hparses
  refine ⟨fun hten => ?_, fun hroom hamp f hf name hname hown hlater => ?_⟩
  · obtain ⟨form', hparse'⟩ := parse_request_refused h hbody hbuf hten.ge
    have hzero := (hvalues hten.le).1
    rw [hparse'] at hparse
    cases hparse
    cases hzero
  · obtain ⟨form', hparse', lim, fs', hform, hvalue⟩ := parse_request_fields h hbody hbuf hroom
    rw [hparse'] at hparse
    cases hparse
    obtain ⟨-, houtput, hhash, hinput, -⟩ := hvalues hroom.le
    -- The slot of this name holds the old pointer and one to the hidden value.
    have hsome : (valueOf name fs').isSome = (valueOf name fs).isSome := by
      simp only [List.mem_cons, List.not_mem_nil, or_false] at hname
      rcases hname with rfl | rfl | rfl
      · exact hform.output.pointsTo.isSome_eq houtput
      · exact hform.hash.pointsTo.isSome_eq hhash
      · exact hform.input.pointsTo.isSome_eq hinput
    rw [hvalue name (head_ne_ampersand hname), visible, if_pos hamp, hlater] at hsome
    cases fs with
    | nil => cases hf
    | cons g fs =>
      cases hf
      rw [List.tail_cons] at hlater
      rw [valueOf_cons, hlater, Option.none_or] at hsome
      exact hown (Option.isNone_iff_eq_none.mp (by simpa using hsome.symm))

/-- `parse_request` parses a body as its fields say if and only if there are not ten of them and no
value is lost with the first of a body that starts with an ampersand. -/
theorem parse_request_iff (h : HashRunner P) (hbody : Body fs text) (hbuf : StringAt buf 0 text) :
    ParsesForm h buf fs ↔ FormFits text fs :=
  ⟨ParsesForm.formFits h hbody hbuf, FormFits.parsesForm h hbody hbuf⟩

theorem parse_request_iff_fields :
    ParsesForm (⟨0, 0, 1, 2⟩ : HashRunner Nat) (ascii "hash=md5&&input=a%20b" ++ [0])
      [ascii "hash=md5", ascii "input=a%20b"] := by
  have hbody : Body [ascii "hash=md5", ascii "input=a%20b"]
      (ascii "hash=md5&&input=a%20b") :=
    .field (by decide) (by decide) (.ampersand (.last (by decide) (by decide)))
  apply (parse_request_iff _ hbody ⟨by decide, [], rfl⟩).mpr
  exact ⟨by decide, fun _ hamp => absurd hamp (by decide)⟩

/-- An ampersand in front of the only field loses the input, and ten fields are not parsed. -/
theorem form_refused :
    (Body [ascii "input=a"] (ascii "&input=a") ∧
      ¬ParsesForm (⟨0, 0, 1, 2⟩ : HashRunner Nat) (ascii "&input=a" ++ [0])
        [ascii "input=a"]) ∧
      ∃ text, Body (List.replicate 10 (ascii "a=b")) text ∧
        ¬ParsesForm (⟨0, 0, 1, 2⟩ : HashRunner Nat) (text ++ [0])
          (List.replicate 10 (ascii "a=b")) := by
  have hamp : Body [ascii "input=a"] (ascii "&input=a") :=
    .ampersand (.last (by decide) (by decide))
  have hmany : ∀ n, Body (List.replicate (n + 1) (ascii "a=b"))
      ((List.replicate n (ascii "a=b" ++ [ampersand])).flatten ++ ascii "a=b") := by
    intro n
    induction n with
    | zero => exact .last (by decide) (by decide)
    | succ n ih => exact .field (by decide) (by decide) ih
  have hstring : ∀ s : List UInt8, 0 ∉ s → StringAt (s ++ [0]) 0 s := fun s hs => ⟨hs, [], rfl⟩
  refine ⟨⟨hamp, fun hparses => ?_⟩, _, hmany 9, fun hparses => ?_⟩
  · have hfits := hparses.formFits _ hamp (hstring _ (by decide))
    exact hfits.2 (by decide) rfl _ rfl (ascii "input") (by simp) (by decide +kernel) rfl
  · exact (hparses.formFits _ (hmany 9) (hstring _ (by decide))).1 List.length_replicate

end

end CtfChallenges.Hashpop
