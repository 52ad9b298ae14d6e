import CtfChallenges.Kvaas.Refinement

/-!
# Who owns the blocks

Setting a value and deleting an entry work on blocks that belong to it alone, and so does copying a
number or a time. Copying a string or a secret copies the pointer to a block that the source keeps.
-/

namespace CtfChallenges.Kvaas
open Framework Framework.Memory

/-- The string blocks that a payload refers to, in a secret through its data. -/
def stringsOf (st : Store) : Payload → List Nat
  | .str val => val.toList
  | .secret secret => ((st.secrets.load secret).bind SecretData.data).toList
  | _ => []

def secretsOf : Payload → List Nat
  | .secret secret => [secret]
  | _ => []

/-- Every block belongs to at most one live node, what live nodes refer to is live, and nothing has
been freed twice. -/
structure Owned (st : Store) : Prop where
  strings_apart : ∀ i j v w a, st.nodes.Live i v → st.nodes.Live j w →
    a ∈ stringsOf st v.payload → a ∈ stringsOf st w.payload → i = j
  secrets_apart : ∀ i j v w a, st.nodes.Live i v → st.nodes.Live j w →
    a ∈ secretsOf v.payload → a ∈ secretsOf w.payload → i = j
  strings_live : ∀ i v a, st.nodes.Live i v → a ∈ stringsOf st v.payload →
    ∃ s, st.strings.Live a s
  secrets_live : ∀ i v a, st.nodes.Live i v → a ∈ secretsOf v.payload → ∃ d, st.secrets.Live a d
  freed_once : st.nodes.FreedOnce ∧ st.strings.FreedOnce ∧ st.secrets.FreedOnce

theorem Owned.empty : Owned Store.empty := by
  constructor
  · intro i j v w a hv
    cases hv
  · intro i j v w a hv
    cases hv
  · intro i v a hv
    cases hv
  · intro i v a hv
    cases hv
  · exact ⟨Heap.freedOnce_empty, Heap.freedOnce_empty, Heap.freedOnce_empty⟩

/-- The value of an entry. What is behind a dangling pointer is `none`. -/
inductive Value
  | number (val : Option (BitVec 64))
  | text (val : Option (List UInt8))
  | time (when : Option Int)
  | secret (key : Option (List UInt8)) (pt_len : Option Nat) (data : Option (List UInt8))
deriving DecidableEq, Repr

def value (st : Store) : Payload → Value
  | .uint val => .number val
  | .int val => .number val
  | .str val => .text (val.bind st.strings.peek)
  | .time when => .time when
  | .secret secret =>
    let d := st.secrets.peek secret
    .secret (d.bind SecretData.key) (d.bind SecretData.pt_len)
      ((d.bind SecretData.data).bind st.strings.peek)

/-- The other entries are still there with their names and values. -/
def Undisturbed (st st' : Store) (n : Nat) : Prop :=
  ∀ j v, j ≠ n → st.nodes.Live j v → ∃ w, st'.nodes.Live j w ∧ w.name = v.name ∧
    value st' w.payload = value st v.payload

/-- The step is the node's own: the others keep their blocks, and the node only gets new ones. -/
structure ActsOn (st st' : Store) (n : Nat) : Prop where
  others : ∀ j w, j ≠ n → st'.nodes.Live j w → ∃ v, st.nodes.Live j v ∧ w.payload = v.payload
  keeps : ∀ j v, j ≠ n → st.nodes.Live j v →
    ∃ w, st'.nodes.Live j w ∧ w.name = v.name ∧ w.payload = v.payload
  strings : ∀ j v a s, j ≠ n → st.nodes.Live j v → a ∈ stringsOf st v.payload →
    st.strings.Live a s → st'.strings.Live a s
  secrets : ∀ j v a d, j ≠ n → st.nodes.Live j v → a ∈ secretsOf v.payload →
    st.secrets.Live a d → st'.secrets.Live a d
  own_strings : ∀ w a, st'.nodes.Live n w → a ∈ stringsOf st' w.payload →
    (∃ s, st'.strings.Live a s) ∧
      (a < st.strings.next → ∃ v, st.nodes.Live n v ∧ a ∈ stringsOf st v.payload)
  own_secrets : ∀ w a, st'.nodes.Live n w → a ∈ secretsOf w.payload →
    (∃ d, st'.secrets.Live a d) ∧
      (a < st.secrets.next → ∃ v, st.nodes.Live n v ∧ a ∈ secretsOf v.payload)
  freed_once : st'.nodes.FreedOnce ∧ st'.strings.FreedOnce ∧ st'.secrets.FreedOnce

private theorem ActsOn.stringsOf_eq {st st' : Store} {n : Nat} (h : ActsOn st st' n)
    (howned : Owned st) {j : Nat} {v : Node} (hne : j ≠ n) (hv : st.nodes.Live j v) :
    stringsOf st' v.payload = stringsOf st v.payload := by
  cases hpayload : v.payload with
  | secret secret =>
    have hmem : secret ∈ secretsOf v.payload := by rw [hpayload]; exact List.mem_singleton.mpr rfl
    obtain ⟨d, hd⟩ := howned.secrets_live j v secret hv hmem
    have hd' := h.secrets j v secret d hne hv hmem hd
    rw [stringsOf, stringsOf, hd.load, hd'.load]
  | uint val => rfl
  | int val => rfl
  | str val => rfl
  | time when => rfl

/-- A reference in the state after the step: another node had it before, and the node itself had it
or got a new block. -/
private theorem ActsOn.strings_before {st st' : Store} {n : Nat} (h : ActsOn st st' n)
    (howned : Owned st) {i : Nat} {v : Node} {a : Nat} (hv : st'.nodes.Live i v)
    (ha : a ∈ stringsOf st' v.payload) (hold : a < st.strings.next) :
    ∃ u, st.nodes.Live i u ∧ a ∈ stringsOf st u.payload := by
  by_cases hi : i = n
  · subst hi
    exact (h.own_strings v a hv ha).2 hold
  · obtain ⟨u, hu, hpayload⟩ := h.others i v hi hv
    rw [hpayload, h.stringsOf_eq howned hi hu] at ha
    exact ⟨u, hu, ha⟩

private theorem ActsOn.strings_old {st st' : Store} {n : Nat} (h : ActsOn st st' n)
    (howned : Owned st) {i : Nat} {v : Node} {a : Nat} (hi : i ≠ n) (hv : st'.nodes.Live i v)
    (ha : a ∈ stringsOf st' v.payload) : a < st.strings.next := by
  obtain ⟨u, hu, hpayload⟩ := h.others i v hi hv
  rw [hpayload, h.stringsOf_eq howned hi hu] at ha
  obtain ⟨s, hs⟩ := howned.strings_live i u a hu ha
  exact hs.lt

private theorem ActsOn.secrets_before {st st' : Store} {n : Nat} (h : ActsOn st st' n)
    {i : Nat} {v : Node} {a : Nat} (hv : st'.nodes.Live i v) (ha : a ∈ secretsOf v.payload)
    (hold : a < st.secrets.next) : ∃ u, st.nodes.Live i u ∧ a ∈ secretsOf u.payload := by
  by_cases hi : i = n
  · subst hi
    exact (h.own_secrets v a hv ha).2 hold
  · obtain ⟨u, hu, hpayload⟩ := h.others i v hi hv
    rw [hpayload] at ha
    exact ⟨u, hu, ha⟩

private theorem ActsOn.secrets_old {st st' : Store} {n : Nat} (h : ActsOn st st' n)
    (howned : Owned st) {i : Nat} {v : Node} {a : Nat} (hi : i ≠ n) (hv : st'.nodes.Live i v)
    (ha : a ∈ secretsOf v.payload) : a < st.secrets.next := by
  obtain ⟨u, hu, hpayload⟩ := h.others i v hi hv
  rw [hpayload] at ha
  obtain ⟨d, hd⟩ := howned.secrets_live i u a hu ha
  exact hd.lt

theorem ActsOn.owned {st st' : Store} {n : Nat} (h : ActsOn st st' n) (howned : Owned st) :
    Owned st' := by
  constructor
  · intro i j v w a hv hw hav haw
    by_cases hij : i = n ∧ j = n
    · rw [hij.1, hij.2]
    · have hold : a < st.strings.next := by
        by_cases hi : i = n
        · exact h.strings_old howned (fun hj => hij ⟨hi, hj⟩) hw haw
        · exact h.strings_old howned hi hv hav
      obtain ⟨u, hu, hau⟩ := h.strings_before howned hv hav hold
      obtain ⟨u', hu', hau'⟩ := h.strings_before howned hw haw hold
      exact howned.strings_apart i j u u' a hu hu' hau hau'
  · intro i j v w a hv hw hav haw
    by_cases hij : i = n ∧ j = n
    · rw [hij.1, hij.2]
    · have hold : a < st.secrets.next := by
        by_cases hi : i = n
        · exact h.secrets_old howned (fun hj => hij ⟨hi, hj⟩) hw haw
        · exact h.secrets_old howned hi hv hav
      obtain ⟨u, hu, hau⟩ := h.secrets_before hv hav hold
      obtain ⟨u', hu', hau'⟩ := h.secrets_before hw haw hold
      exact howned.secrets_apart i j u u' a hu hu' hau hau'
  · intro i v a hv ha
    by_cases hi : i = n
    · subst hi
      exact (h.own_strings v a hv ha).1
    · obtain ⟨u, hu, hpayload⟩ := h.others i v hi hv
      rw [hpayload, h.stringsOf_eq howned hi hu] at ha
      obtain ⟨s, hs⟩ := howned.strings_live i u a hu ha
      exact ⟨s, h.strings i u a s hi hu ha hs⟩
  · intro i v a hv ha
    by_cases hi : i = n
    · subst hi
      exact (h.own_secrets v a hv ha).1
    · obtain ⟨u, hu, hpayload⟩ := h.others i v hi hv
      rw [hpayload] at ha
      obtain ⟨d, hd⟩ := howned.secrets_live i u a hu ha
      exact ⟨d, h.secrets i u a d hi hu ha hd⟩
  · exact h.freed_once

/-- A node's own step does not disturb the others. -/
theorem ActsOn.undisturbed {st st' : Store} {n : Nat} (h : ActsOn st st' n) (howned : Owned st) :
    Undisturbed st st' n := by
  intro j v hne hv
  obtain ⟨w, hw, hname, hpayload⟩ := h.keeps j v hne hv
  refine ⟨w, hw, hname, ?_⟩
  rw [hpayload]
  have hpeek : ∀ a ∈ stringsOf st v.payload, st'.strings.peek a = st.strings.peek a := by
    intro a ha
    obtain ⟨s, hs⟩ := howned.strings_live j v a hv ha
    rw [hs.peek, (h.strings j v a s hne hv ha hs).peek]
  cases hvalue : v.payload with
  | uint val => rfl
  | int val => rfl
  | time when => rfl
  | str val =>
    rw [hvalue] at hpeek
    cases val with
    | none => rfl
    | some a => exact congrArg Value.text (hpeek a (List.mem_singleton.mpr rfl))
  | secret secret =>
    have hmem : secret ∈ secretsOf v.payload := by rw [hvalue]; exact List.mem_singleton.mpr rfl
    obtain ⟨d, hd⟩ := howned.secrets_live j v secret hv hmem
    have hd' := h.secrets j v secret d hne hv hmem hd
    rw [hvalue, stringsOf, hd.load] at hpeek
    simp only [value, hd.peek, hd'.peek, Option.bind_some]
    cases hdata : d.data with
    | none => rfl
    | some a =>
      have ha := hpeek a (by rw [Option.bind_some, hdata]; exact List.mem_singleton.mpr rfl)
      rw [Option.bind_some, Option.bind_some, ha]

theorem actsOn_push {st st' : Store} {v : Node} (howned : Owned st)
    (hnodes : st'.nodes = st.nodes.malloc v) (hstrings : st'.strings = st.strings)
    (hsecrets : ∀ a d, st.secrets.Live a d → st'.secrets.Live a d)
    (hfreed : st'.secrets.FreedOnce) (hown : stringsOf st' v.payload = [])
    (hnew : ∀ a ∈ secretsOf v.payload,
      (∃ d, st'.secrets.Live a d) ∧ st.secrets.next ≤ a) : ActsOn st st' st.nodes.next := by
  have hself : ∀ w, st'.nodes.Live st.nodes.next w → w = v := by
    intro w hw
    rw [hnodes] at hw
    exact hw.unique (Heap.live_malloc_next st.nodes v)
  constructor
  · intro j w hne hw
    rw [hnodes, Heap.live_malloc] at hw
    obtain hold | ⟨heq, -⟩ := hw
    · exact ⟨w, hold, rfl⟩
    · exact absurd heq hne
  · intro j u _ hu
    refine ⟨u, ?_, rfl, rfl⟩
    rw [hnodes]
    exact hu.malloc v
  · intro j u a s _ _ _ hs
    rw [hstrings]
    exact hs
  · intro j u a d _ _ _ hd
    exact hsecrets a d hd
  · intro w a hw ha
    rw [hself w hw, hown] at ha
    cases ha
  · intro w a hw ha
    rw [hself w hw] at ha
    obtain ⟨hlive, hge⟩ := hnew a ha
    exact ⟨hlive, fun hlt => absurd hlt (Nat.not_lt.mpr hge)⟩
  · rw [hnodes, hstrings]
    exact ⟨howned.freed_once.1.malloc v, howned.freed_once.2.1, hfreed⟩

theorem actsOn_withNode {st : Store} (howned : Owned st) (name : List UInt8)
    (t : node_type) : ActsOn st (withNode st name t) st.nodes.next := by
  have hfreed := howned.freed_once.2.2
  by_cases ht : t = .NODE_SECRET
  · subst ht
    have hsecrets : (withNode st name .NODE_SECRET).secrets =
        st.secrets.malloc ⟨none, none, none⟩ := by
      rw [withNode, if_pos rfl]
    have hlive := Heap.live_malloc_next st.secrets ⟨none, none, none⟩
    refine actsOn_push howned rfl rfl ?_ ?_ ?_ ?_
    · intro a d hd
      rw [hsecrets]
      exact hd.malloc _
    · rw [hsecrets]
      exact hfreed.malloc _
    · simp only [freshPayload, stringsOf]
      rw [hsecrets, hlive.load]
      rfl
    · intro a ha
      have heq : a = st.secrets.next := List.mem_singleton.mp ha
      rw [hsecrets, heq]
      exact ⟨⟨_, hlive⟩, Nat.le_refl _⟩
  · have hsecrets : (withNode st name t).secrets = st.secrets := by
      rw [withNode, if_neg ht]
    have hnone : stringsOf (withNode st name t) (freshPayload st t) = [] ∧
        secretsOf (freshPayload st t) = [] := by
      cases t with
      | NODE_SECRET => exact absurd rfl ht
      | NODE_UINT => exact ⟨rfl, rfl⟩
      | NODE_INT => exact ⟨rfl, rfl⟩
      | NODE_STR => exact ⟨rfl, rfl⟩
      | NODE_TIME => exact ⟨rfl, rfl⟩
    refine actsOn_push howned rfl rfl ?_ ?_ ?_ ?_
    · intro a d hd
      rw [hsecrets]
      exact hd
    · rw [hsecrets]
      exact hfreed
    · exact hnone.1
    · intro a ha
      rw [hnone.2] at ha
      cases ha

private theorem actsOn_set_payload {st st' : Store} {n : Nat} {payload : Payload}
    (howned : Owned st) (hnodes : st'.nodes = (set_payload st n payload).nodes)
    (hstrings : ∀ a s, st.strings.Live a s → st'.strings.Live a s)
    (hfreed : st'.strings.FreedOnce) (hsecrets : st'.secrets = st.secrets)
    (hown : ∀ a ∈ stringsOf st' payload, (∃ s, st'.strings.Live a s) ∧ st.strings.next ≤ a)
    (hnone : secretsOf payload = []) : ActsOn st st' n := by
  have hself : ∀ w, st'.nodes.Live n w → w.payload = payload := by
    intro w hw
    rw [hnodes] at hw
    obtain ⟨v, -, rfl⟩ := (Heap.live_update _ _ _ _ _).mp hw
    rw [if_pos rfl]
  constructor
  · intro j w hne hw
    rw [hnodes] at hw
    obtain ⟨v, hv, rfl⟩ := (Heap.live_update _ _ _ _ _).mp hw
    exact ⟨v, hv, by rw [if_neg hne]⟩
  · intro j v hne hv
    refine ⟨v, ?_, rfl, rfl⟩
    rw [hnodes]
    exact hv.update_of_ne hne _
  · intro j v a s _ _ _ hs
    exact hstrings a s hs
  · intro j v a d _ _ _ hd
    rw [hsecrets]
    exact hd
  · intro w a hw ha
    rw [hself w hw] at ha
    obtain ⟨hlive, hge⟩ := hown a ha
    exact ⟨hlive, fun hlt => absurd hlt (Nat.not_lt.mpr hge)⟩
  · intro w a hw ha
    rw [hself w hw, hnone] at ha
    cases ha
  · rw [hnodes, hsecrets]
    exact ⟨howned.freed_once.1.update _ _, hfreed, howned.freed_once.2.2⟩

private theorem actsOn_set_node_secret {st st' : Store} {n : Nat} {v : Node} {secret : Nat}
    (howned : Owned st) (hv : st.nodes.Live n v) (hpayload : v.payload = .secret secret)
    {key value : List UInt8} (hset : set_node_secret st secret key value = some st') :
    ActsOn st st' n := by
  simp only [set_node_secret, Option.bind_eq_bind] at hset
  obtain ⟨data, -, hst⟩ := Option.bind_eq_some_iff.mp hset
  cases hst
  have hmem : secret ∈ secretsOf v.payload := by rw [hpayload]; exact List.mem_singleton.mpr rfl
  obtain ⟨d, hd⟩ := howned.secrets_live n v secret hv hmem
  constructor
  · intro j w _ hw
    exact ⟨w, hw, rfl⟩
  · intro j u _ hu
    exact ⟨u, hu, rfl, rfl⟩
  · intro j u a s _ _ _ hs
    exact hs.malloc data
  · intro j u a e hne hu ha he
    -- The blocks are apart, so that this one is not the secret that has changed.
    have hother : a ≠ secret := by
      intro heq
      subst heq
      exact hne (howned.secrets_apart j n u v a hu hv ha hmem)
    exact he.update_of_ne hother _
  · intro w a hw ha
    have hwv : w = v := Heap.Live.unique hw hv
    rw [hwv, hpayload, stringsOf, (hd.update_self _).load] at ha
    have heq : a = st.strings.next := List.mem_singleton.mp ha
    subst heq
    exact ⟨⟨data, Heap.live_malloc_next _ _⟩, fun hlt => absurd hlt (Nat.lt_irrefl _)⟩
  · intro w a hw ha
    have hwv : w = v := Heap.Live.unique hw hv
    have heq : a = secret := by
      rw [hwv, hpayload] at ha
      exact List.mem_singleton.mp ha
    subst heq
    exact ⟨⟨_, hd.update_self _⟩, fun _ => ⟨v, hv, hmem⟩⟩
  · exact ⟨howned.freed_once.1, howned.freed_once.2.1.malloc data,
      howned.freed_once.2.2.update _ _⟩

theorem actsOn_set_func {st st' : Store} {n : Nat} {v : Node} (howned : Owned st)
    (hv : st.nodes.Live n v) {ans : Answers} (hset : set_func st n ans = some st') :
    ActsOn st st' n := by
  have hnumber : ∀ payload, (stringsOf (set_payload st n payload) payload = []) →
      secretsOf payload = [] → ActsOn st (set_payload st n payload) n := by
    intro payload hstrings hsecrets
    apply actsOn_set_payload howned rfl (fun _ _ hs => hs) howned.freed_once.2.1 rfl _ hsecrets
    intro a ha
    rw [hstrings] at ha
    cases ha
  simp only [set_func, hv.load, Option.bind_eq_bind, Option.bind_some] at hset
  cases hpayload : v.payload with
  | uint val =>
    rw [hpayload] at hset
    cases hset
    exact hnumber _ rfl rfl
  | int val =>
    rw [hpayload] at hset
    cases hset
    exact hnumber _ rfl rfl
  | time when =>
    rw [hpayload] at hset
    cases hset
    exact hnumber _ rfl rfl
  | str val =>
    rw [hpayload] at hset
    cases hset
    refine actsOn_set_payload howned rfl (fun _ _ hs => hs.malloc ans.first)
      (howned.freed_once.2.1.malloc ans.first) rfl ?_ rfl
    intro a ha
    have heq : a = st.strings.next := List.mem_singleton.mp ha
    subst heq
    exact ⟨⟨ans.first, Heap.live_malloc_next _ _⟩, Nat.le_refl _⟩
  | secret secret =>
    rw [hpayload] at hset
    exact actsOn_set_node_secret howned hv hpayload hset

private theorem live_freePointer (h : Heap (List UInt8)) (p : Option Nat) (a : Nat)
    (s : List UInt8) : (freePointer h p).Live a s ↔ a ∉ p.toList ∧ h.Live a s := by
  cases p with
  | none => simp [freePointer]
  | some b => simp [freePointer, Heap.live_free]

private theorem freedOnce_freePointer {h : Heap (List UInt8)} (hf : h.FreedOnce) {p : Option Nat}
    (hlive : ∀ a ∈ p.toList, ∃ s, h.Live a s) : (freePointer h p).FreedOnce := by
  cases p with
  | none => exact hf
  | some b =>
    obtain ⟨s, hs⟩ := hlive b (List.mem_singleton.mpr rfl)
    exact hf.free hs

private theorem live_released (st : Store) (payload : Payload) :
    (∀ a s, (released st payload).1.Live a s ↔ a ∉ stringsOf st payload ∧ st.strings.Live a s) ∧
    ∀ a d, (released st payload).2.Live a d ↔ a ∉ secretsOf payload ∧ st.secrets.Live a d := by
  cases payload with
  | uint val => simp [released, stringsOf, secretsOf]
  | int val => simp [released, stringsOf, secretsOf]
  | time when => simp [released, stringsOf, secretsOf]
  | str val => simp [released, stringsOf, secretsOf, live_freePointer]
  | secret secret => simp [released, stringsOf, secretsOf, live_freePointer, Heap.live_free]

private theorem freedOnce_released {st : Store} (howned : Owned st) {n : Nat} {v : Node}
    (hv : st.nodes.Live n v) :
    (released st v.payload).1.FreedOnce ∧ (released st v.payload).2.FreedOnce := by
  have hstrings := fun a => howned.strings_live n v a hv
  have hsecrets := fun a => howned.secrets_live n v a hv
  have hfreed := howned.freed_once.2
  cases hpayload : v.payload with
  | uint val => exact hfreed
  | int val => exact hfreed
  | time when => exact hfreed
  | str val =>
    rw [hpayload] at hstrings
    exact ⟨freedOnce_freePointer hfreed.1 hstrings, hfreed.2⟩
  | secret secret =>
    rw [hpayload] at hstrings hsecrets
    obtain ⟨d, hd⟩ := hsecrets secret (List.mem_singleton.mpr rfl)
    exact ⟨freedOnce_freePointer hfreed.1 hstrings, hfreed.2.free hd⟩

theorem actsOn_delete_node {st st' : Store} {front back : List (Nat × Node)} {d : Nat × Node}
    (h : Nodes st (front ++ d :: back)) (howned : Owned st)
    (hdelete : delete_node st d.1 = some st') : ActsOn st st' d.1 := by
  obtain ⟨st'', cells', hrun, hcells', hcore, hstrings, hsecrets, hfreed⟩ := h.delete_node
  rw [hrun] at hdelete
  cases hdelete
  have hd : st.nodes.Live d.1 d.2 := h.linked.live d (by simp)
  have hgone : d.1 ∉ cells'.map Prod.fst := by
    have hfst := congrArg (List.map Prod.fst) hcore
    rw [List.map_map, List.map_map] at hfst
    have hnodup := h.nodup
    rw [List.map_append, List.map_cons, List.nodup_middle, List.nodup_cons, ← List.map_append]
      at hnodup
    exact fun hmem => hnodup.1 (hfst ▸ hmem)
  have hself : ∀ w, ¬ st'.nodes.Live d.1 w := fun w hw =>
    hgone (List.mem_map.mpr ⟨_, hcells'.all d.1 w hw, rfl⟩)
  constructor
  · intro j w _ hw
    obtain ⟨c, hc, heq⟩ := mem_of_map_core hcore (hcells'.all j w hw)
    have hmem : c ∈ front ++ d :: back := by
      rw [List.mem_append] at hc ⊢
      exact hc.imp id (List.mem_cons_of_mem d)
    have hj : c.1 = j := congrArg Prod.fst heq
    exact ⟨c.2, hj ▸ h.linked.live c hmem, (congrArg (fun k => k.2.2) heq).symm⟩
  · intro j v hne hv
    have hmem : (j, v) ∈ front ++ back := by
      have hall := h.all j v hv
      rw [List.mem_append, List.mem_cons] at hall
      rw [List.mem_append]
      exact hall.imp id fun hback => hback.resolve_left fun heq => hne (congrArg Prod.fst heq)
    obtain ⟨c, hc, heq⟩ := mem_of_map_core hcore.symm hmem
    have hj : c.1 = j := congrArg Prod.fst heq
    exact ⟨c.2, hj ▸ hcells'.linked.live c hc, congrArg (fun k => k.2.1) heq,
      congrArg (fun k => k.2.2) heq⟩
  · intro j v a s hne hv ha hs
    rw [hstrings, (live_released st d.2.payload).1]
    exact ⟨fun had => hne (howned.strings_apart j d.1 v d.2 a hv hd ha had), hs⟩
  · intro j v a e hne hv ha he
    rw [hsecrets, (live_released st d.2.payload).2]
    exact ⟨fun had => hne (howned.secrets_apart j d.1 v d.2 a hv hd ha had), he⟩
  · exact fun w a hw => absurd hw (hself w)
  · exact fun w a hw => absurd hw (hself w)
  · rw [hstrings, hsecrets]
    exact ⟨hfreed howned.freed_once.1, freedOnce_released howned hd⟩

end CtfChallenges.Kvaas
