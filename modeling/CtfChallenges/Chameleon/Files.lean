import CtfChallenges.Chameleon.Keys
import CtfChallenges.Chameleon.Rand
import Mathlib.Algebra.Ring.Int.Defs

/-!
# Files under the keys of the server

`do_encrypt` and `do_decrypt` of `chameleon.cpp` with the server, and the keys that `solve.cpp` prints.
The cipher is a parameter.
-/

namespace CtfChallenges.Chameleon
open Framework LineMatch

/-- DES under an imported key, with no value where the provider reports an error. -/
structure Provider where
  CryptEncrypt : Bytes → Bytes → Option Bytes
  CryptDecrypt : Bytes → Bytes → Option Bytes
  decrypt_encrypt : ∀ key data file, CryptEncrypt key data = some file →
    CryptDecrypt key file = some data

/-- `InternetReadFile` into the buffer of 1024 bytes, with no value where the terminator is written
behind it. It is called once, and this assumes that the call waits for the whole reply, or for as
much of it as was asked for. -/
def readReply (limit : Nat) (body : Bytes) : Option Bytes :=
  let read := body.take limit
  if read.length < 1024 then some read else none

/-- The identifier that is printed, with no value where the program exits. -/
def store_key (host : Host) (DATABASE : Database) (key : Vector UInt8 DES_KEY_SIZE) (uuid : Bytes) :
    Option Bytes × Database :=
  match serve host DATABASE (.store (to_hex key) uuid) with
  | (.status 200 body, DATABASE) => (readReply 1023 body, DATABASE)
  | (_, DATABASE) => (none, DATABASE)

def retrieve_key (DATABASE : Database) (id : Bytes) : Option Bytes :=
  match retrieve DATABASE (some id) with
  | .status 200 body => (readReply 1024 body).bind from_hex
  | _ => none

/-- The identifier and the encrypted file. The file is written last. -/
def do_encrypt (provider : Provider) (host : Host) (DATABASE : Database) (time : Int)
    (buffer : Vector UInt8 DES_KEY_SIZE) (data uuid : Bytes) : Option (Bytes × Bytes) × Database :=
  let key := (generate_key time buffer Rand.initial).1
  match provider.CryptEncrypt key.toList data with
  | none => (none, DATABASE)
  | some data =>
    let (id, DATABASE) := store_key host DATABASE key uuid
    (id.map fun id => (id, data), DATABASE)

def do_decrypt (provider : Provider) (DATABASE : Database) (data id : Bytes) : Option Bytes :=
  (retrieve_key DATABASE id).bind fun key => provider.CryptDecrypt key data

variable (provider : Provider) (host : Host)

theorem length_of_fits_uuid {uuid : Bytes} (h : fits uuidClasses uuid = true) : uuid.length = 36 := by
  rw [length_of_fits h]
  decide

theorem readReply_eq {limit : Nat} {body : Bytes} (hlimit : body.length ≤ limit)
    (hlt : body.length < 1024) : readReply limit body = some body := by
  simp [readReply, List.take_of_length_le hlimit, hlt]

theorem matchesLine_to_hex (key : Vector UInt8 DES_KEY_SIZE) :
    matchesLine 0x0a keyClasses (to_hex key) = true :=
  matchesLine_of_fits ((fits_keyClasses _).mpr (isKey_to_hex key))

/-- A store prints the identifier, if the server can write its file. -/
theorem store_key_kept (DATABASE : Database) (key : Vector UInt8 DES_KEY_SIZE) {uuid : Bytes}
    (hfits : fits uuidClasses uuid = true)
    (hwrite : host.write (DATABASE.put uuid ⟨uuid, to_hex key⟩) = true) :
    store_key host DATABASE key uuid = (some uuid, DATABASE.put uuid ⟨uuid, to_hex key⟩) := by
  have hlength := length_of_fits_uuid hfits
  have hread : readReply 1023 uuid = some uuid := readReply_eq (by omega) (by omega)
  simp [store_key, serve, store, matchesLine_to_hex, hwrite, hread]

theorem store_key_cases (DATABASE : Database) (key : Vector UInt8 DES_KEY_SIZE) {uuid : Bytes}
    (hfits : fits uuidClasses uuid = true) :
    (store_key host DATABASE key uuid).2 = DATABASE.put uuid ⟨uuid, to_hex key⟩ ∧
      ∀ id, (store_key host DATABASE key uuid).1 = some id → id = uuid := by
  by_cases hwrite : host.write (DATABASE.put uuid ⟨uuid, to_hex key⟩) = true
  · simp [store_key_kept host DATABASE key hfits hwrite, eq_comm]
  · simp [store_key, serve, store, matchesLine_to_hex, hwrite]

/-- An encryption may fail before the server or behind it. The file that it writes is under the key
that the server holds. -/
theorem do_encrypt_cases (DATABASE : Database) (time : Int) (buffer : Vector UInt8 DES_KEY_SIZE)
    (data : Bytes) {uuid : Bytes} (hfits : fits uuidClasses uuid = true) :
    do_encrypt provider host DATABASE time buffer data uuid = (none, DATABASE) ∨
      ∃ key : Vector UInt8 DES_KEY_SIZE,
        (do_encrypt provider host DATABASE time buffer data uuid).2 =
            DATABASE.put uuid ⟨uuid, to_hex key⟩ ∧
          ∀ id file, (do_encrypt provider host DATABASE time buffer data uuid).1 = some (id, file) →
            id = uuid ∧ provider.CryptEncrypt key.toList data = some file := by
  let key := (generate_key time buffer Rand.initial).1
  obtain ⟨hdatabase, hid⟩ := store_key_cases host DATABASE key hfits
  cases hfile : provider.CryptEncrypt key.toList data with
  | none =>
    left
    simp only [do_encrypt, key, hfile]
  | some file =>
    refine .inr ⟨key, ?_, ?_⟩
    · simpa only [do_encrypt, key, hfile] using hdatabase
    · intro id file' heq
      simp only [do_encrypt, key, hfile, Option.map_eq_some_iff, Prod.mk.injEq] at heq
      obtain ⟨id', hid', rfl, rfl⟩ := heq
      exact ⟨hid _ hid', hfile⟩

/-- When the host writes, an encryption gives its file and the key is held. -/
theorem do_encrypt_kept (DATABASE : Database) (time : Int) (buffer : Vector UInt8 DES_KEY_SIZE)
    {data uuid file : Bytes} {key : Vector UInt8 DES_KEY_SIZE}
    (hkey : (generate_key time buffer Rand.initial).1 = key)
    (hfile : provider.CryptEncrypt key.toList data = some file) (hfits : fits uuidClasses uuid = true)
    (hwrite : host.write (DATABASE.put uuid ⟨uuid, to_hex key⟩) = true) :
    do_encrypt provider host DATABASE time buffer data uuid =
      (some (uuid, file), DATABASE.put uuid ⟨uuid, to_hex key⟩) := by
  simp [do_encrypt, hkey, hfile, store_key_kept host DATABASE key hfits hwrite]

/-- The key that is held for an identifier comes back. -/
theorem retrieve_key_of_lookup {DATABASE : Database} {id : Bytes} (hfits : fits uuidClasses id = true)
    {key : Vector UInt8 DES_KEY_SIZE} (h : DATABASE.lookup id = some ⟨id, to_hex key⟩) :
    retrieve_key DATABASE id = some key.toList := by
  have hlength : (to_hex key).length = 16 := (isKey_to_hex key).1
  have hread : readReply 1024 (to_hex key) = some (to_hex key) := readReply_eq (by omega) (by omega)
  simp [retrieve_key, retrieve_of_lookup hfits h, hread, from_hex_to_hex]

/-- A file is encrypted, or any other request is made. -/
inductive Event
  | encrypt (time : Int) (buffer : Vector UInt8 DES_KEY_SIZE) (data uuid : Bytes)
  | request (r : Request)

def Event.uuid : Event → Option Bytes
  | .encrypt _ _ _ uuid => some uuid
  | .request r => r.uuid

/-- What was encrypted, with the identifier for it and the file that was written. -/
structure Encrypted where
  id : Bytes
  data : Bytes
  file : Bytes

structure World where
  DATABASE : Database
  files : List Encrypted

def World.step (w : World) : Event → World
  | .encrypt time buffer data uuid =>
    let (written, DATABASE) := do_encrypt provider host w.DATABASE time buffer data uuid
    ⟨DATABASE, (written.map fun (id, file) => ⟨id, data, file⟩).toList ++ w.files⟩
  | .request r => { w with DATABASE := (serve host w.DATABASE r).2 }

def World.after (events : List Event) : World :=
  events.foldl (World.step provider host) ⟨host.data, []⟩

theorem World.step_encrypt {w : World} {time : Int} {buffer : Vector UInt8 DES_KEY_SIZE}
    {data uuid id file : Bytes} {DATABASE : Database}
    (h : do_encrypt provider host w.DATABASE time buffer data uuid = (some (id, file), DATABASE)) :
    World.step provider host w (.encrypt time buffer data uuid) =
      ⟨DATABASE, ⟨id, data, file⟩ :: w.files⟩ := by
  simp [World.step, h]

theorem World.files_request (w : World) (r : Request) :
    (World.step provider host w (.request r)).files = w.files := rfl

/-- The server holds the key of the file. -/
def Kept (DATABASE : Database) (f : Encrypted) : Prop :=
  fits uuidClasses f.id = true ∧ ∃ key : Vector UInt8 DES_KEY_SIZE,
    DATABASE.lookup f.id = some ⟨f.id, to_hex key⟩ ∧
      provider.CryptEncrypt key.toList f.data = some f.file

theorem Kept.decrypt {DATABASE : Database} {f : Encrypted} (h : Kept provider DATABASE f) :
    do_decrypt provider DATABASE f.file f.id = some f.data := by
  obtain ⟨hfits, key, hlookup, hfile⟩ := h
  rw [do_decrypt, retrieve_key_of_lookup hfits hlookup, Option.bind_some]
  exact provider.decrypt_encrypt _ _ _ hfile

theorem Kept.serve {DATABASE : Database} {f : Encrypted} (h : Kept provider DATABASE f) {r : Request}
    (hother : r.uuid ≠ some f.id) : Kept provider (Chameleon.serve host DATABASE r).2 f := by
  obtain ⟨hfits, key, hlookup, hfile⟩ := h
  refine ⟨hfits, key, ?_, hfile⟩
  rw [← hlookup]
  cases r with
  | retrieve body => rfl
  | store body uuid =>
    have hne : f.id ≠ uuid := fun heq => hother (congrArg some heq.symm)
    rw [serve_store]
    split
    · exact lookup_put_of_ne DATABASE hne _
    · rfl

/-- An event with an identifier of its own leaves the files, and adds one for its identifier. -/
theorem step_kept {w : World} (h : ∀ f ∈ w.files, Kept provider w.DATABASE f) (e : Event)
    (hfits : ∀ uuid, e.uuid = some uuid → fits uuidClasses uuid = true)
    (hother : ∀ f ∈ w.files, e.uuid ≠ some f.id) :
    ∀ f ∈ (w.step provider host e).files, Kept provider (w.step provider host e).DATABASE f ∧
      (f ∈ w.files ∨ e.uuid = some f.id) := by
  cases e with
  | request r => exact fun f hf => ⟨(h f hf).serve provider host (hother f hf), .inl hf⟩
  | encrypt time buffer data uuid =>
    have hfits' := hfits uuid rfl
    obtain heq | ⟨key, hdatabase, hfile⟩ :=
      do_encrypt_cases provider host w.DATABASE time buffer data hfits'
    · simp only [World.step, heq]
      exact fun f hf => ⟨h f hf, .inl hf⟩
    · intro f hf
      simp only [World.step] at hf ⊢
      rw [hdatabase]
      apply (List.mem_append.mp hf).elim
      · intro hnew
        obtain ⟨⟨id, file⟩, hwritten, rfl⟩ := Option.map_eq_some_iff.mp (Option.mem_toList.mp hnew)
        obtain ⟨rfl, hfile'⟩ := hfile id file hwritten
        exact ⟨⟨hfits', key, lookup_put_self _ _ _, hfile'⟩, .inr rfl⟩
      · intro hold
        obtain ⟨hfits'', key', hlookup, hfile'⟩ := h f hold
        have hne : f.id ≠ uuid := fun heq => hother f hold (congrArg some heq.symm)
        exact ⟨⟨hfits'', key', by rw [lookup_put_of_ne _ hne, hlookup], hfile'⟩, .inl hold⟩

/-- Whatever else is stored, each file that was encrypted can be decrypted with the identifier that
was printed for it. -/
theorem decrypts_again (events : List Event)
    (hfits : ∀ uuid ∈ events.filterMap Event.uuid, fits uuidClasses uuid = true)
    (hnodup : (events.filterMap Event.uuid).Nodup) :
    ∀ f ∈ (World.after provider host events).files,
      do_decrypt provider (World.after provider host events).DATABASE f.file f.id = some f.data := by
  have hrun : ∀ (events : List Event) (w : World), (∀ f ∈ w.files, Kept provider w.DATABASE f) →
      (∀ f ∈ w.files, f.id ∉ events.filterMap Event.uuid) →
      (∀ uuid ∈ events.filterMap Event.uuid, fits uuidClasses uuid = true) →
      (events.filterMap Event.uuid).Nodup →
        ∀ f ∈ (events.foldl (World.step provider host) w).files,
          Kept provider (events.foldl (World.step provider host) w).DATABASE f := by
    intro events
    induction events with
    | nil => exact fun w h _ _ _ => h
    | cons e events ih =>
      intro w h hother hfits hnodup
      have hsplit : (e :: events).filterMap Event.uuid =
          e.uuid.toList ++ events.filterMap Event.uuid := by
        cases he : e.uuid <;> simp [he]
      rw [hsplit] at hother hfits hnodup
      rw [List.nodup_append] at hnodup
      have hnext := step_kept provider host h e
        (fun uuid hu => hfits uuid (List.mem_append_left _ (by simp [hu])))
        (fun f hf heq => hother f hf (List.mem_append_left _ (by simp [heq])))
      apply ih
      · exact fun f hf => (hnext f hf).1
      · intro f hf hmem
        apply (hnext f hf).2.elim
        · exact fun hold => hother f hold (List.mem_append_right _ hmem)
        · exact fun heq => hnodup.2.2 f.id (by simp [heq]) f.id hmem rfl
      · exact fun uuid hu => hfits uuid (List.mem_append_right _ hu)
      · exact hnodup.2.1
  intro f hf
  exact (hrun events ⟨host.data, []⟩ nofun nofun hfits hnodup f hf).decrypt provider

/-- A cipher that writes the key in front. -/
def plainProvider : Provider where
  CryptEncrypt key data := some (key ++ data)
  CryptDecrypt key file := some (file.drop key.length)
  decrypt_encrypt key data file h := by
    cases h
    rw [List.drop_left]

def sampleHost : Host := ⟨data_json, fun _ => true⟩

def sampleId : Bytes := ascii "a5c0a1f2-0000-4000-8000-000000000000"

def otherId : Bytes := ascii "b7d1c2e3-0000-4000-8000-000000000000"

/-- A file is encrypted, then others store a key and ask for one. -/
def sampleEvents : List Event :=
  [.encrypt 1583020800 (Vector.replicate 8 0) (ascii "flag") sampleId,
    .request (.store (ascii "0011223344556677") otherId), .request (.retrieve sampleId)]

def sampleKey : Vector UInt8 DES_KEY_SIZE :=
  (generate_key 1583020800 (Vector.replicate 8 0) Rand.initial).1

/-- What the sample cipher makes of a text on the first of March. -/
def sampleFile : Bytes := sampleKey.toList ++ ascii "flag"

theorem sample_fits : fits uuidClasses sampleId = true := by decide +kernel

theorem other_fits : fits uuidClasses otherId = true := by decide +kernel

theorem do_encrypt_sample : do_encrypt plainProvider sampleHost data_json 1583020800
    (Vector.replicate 8 0) (ascii "flag") sampleId =
      (some (sampleId, sampleFile), data_json.put sampleId ⟨sampleId, to_hex sampleKey⟩) :=
  do_encrypt_kept plainProvider sampleHost data_json 1583020800 _ rfl rfl sample_fits rfl

theorem decrypts_again_flag :
    (World.after plainProvider sampleHost sampleEvents).files.map Encrypted.file = [sampleFile] ∧
      ∀ f ∈ (World.after plainProvider sampleHost sampleEvents).files,
        do_decrypt plainProvider (World.after plainProvider sampleHost sampleEvents).DATABASE
          f.file f.id = some f.data := by
  have hfirst : World.step plainProvider sampleHost ⟨sampleHost.data, []⟩
      (.encrypt 1583020800 (Vector.replicate 8 0) (ascii "flag") sampleId) = _ :=
    World.step_encrypt plainProvider sampleHost do_encrypt_sample
  have hfiles : (World.after plainProvider sampleHost sampleEvents).files =
      [⟨sampleId, ascii "flag", sampleFile⟩] := by
    rw [World.after, sampleEvents, List.foldl_cons, List.foldl_cons, List.foldl_cons, List.foldl_nil,
      World.files_request, World.files_request, hfirst]
  have huuids : sampleEvents.filterMap Event.uuid = [sampleId, otherId] := by
    simp [sampleEvents, Event.uuid, Request.uuid]
  refine ⟨?_, decrypts_again plainProvider sampleHost sampleEvents ?_ ?_⟩
  · rw [hfiles, List.map_singleton]
  · intro uuid hu
    simp only [huuids, List.mem_cons, List.not_mem_nil, or_false] at hu
    obtain rfl | rfl := hu
    · exact sample_fits
    · exact other_fits
  · rw [huuids]
    decide +kernel

namespace Solver

/-- `print_hex` of the whole key. -/
def print_hex (str : Vector UInt8 DES_KEY_SIZE) : Bytes := to_hex str

/-- The loop of `main`, with the lines that it prints. -/
def mainLoop (buffer : Vector UInt8 DES_KEY_SIZE) (stop seed : Int) (rand : Rand) : List Bytes :=
  if stop < seed then
    let (key, rand) := Solver.generate_key seed buffer rand
    print_hex key :: mainLoop buffer stop (seed - 1) rand
  else []
termination_by (seed - stop).toNat

/-- `main` at a time, which is cut to an `int`. -/
def main (buffer : Vector UInt8 DES_KEY_SIZE) (start : Int) : List Bytes :=
  mainLoop buffer (start - 86400) (Int.bmod start (2 ^ 32)) Rand.initial

theorem mainLoop_eq (buffer : Vector UInt8 DES_KEY_SIZE) (stop : Int) (n : Nat) (rand : Rand) :
    mainLoop buffer stop (stop + n) rand =
      (List.range n).map fun i : Nat => to_hex (keyOf (UInt32.ofInt (stop + n - i))) := by
  induction n generalizing rand with
  | zero =>
    rw [mainLoop, if_neg (by simp)]
    rfl
  | succ n ih =>
    have hkey : (Solver.generate_key (stop + (n + 1 : Nat)) buffer rand).1 =
        keyOf (UInt32.ofInt (stop + (n + 1 : Nat))) := generate_key_eq _ buffer rand
    have hnext : stop + ((n + 1 : Nat) : Int) - 1 = stop + n := by omega
    rw [mainLoop, if_pos (by omega)]
    dsimp only [print_hex]
    rw [hkey, hnext, ih, List.range_succ_eq_map, List.map_cons, List.map_map]
    refine congrArg₂ List.cons ?_ (List.map_congr_left fun i _ => ?_)
    · have hfirst : stop + ((n + 1 : Nat) : Int) - (0 : Nat) = stop + (n + 1 : Nat) := by omega
      rw [hfirst]
    · have hi : stop + ((n + 1 : Nat) : Int) - (Nat.succ i : Nat) = stop + n - i := by omega
      rw [Function.comp_apply, hi]

/-- Before the time leaves the type `int`, the keys of the last day, and none after that. -/
theorem main_eq (buffer : Vector UInt8 DES_KEY_SIZE) {start : Int} (h : 0 ≤ start) :
    main buffer start = if start < 2 ^ 31 then
      (List.range 86400).map fun i : Nat => to_hex (keyOf (UInt32.ofInt (start - i))) else [] := by
  have hseed : Int.bmod start (2 ^ 32) = if start % 4294967296 < 2147483648 then start % 4294967296
      else start % 4294967296 - 4294967296 := by
    have hwidth : ((2 ^ 32 : Nat) : Int) = 4294967296 := rfl
    rw [Int.bmod_def, hwidth]
    rfl
  rw [main]
  split
  · rename_i hlt
    have hstart : Int.bmod start (2 ^ 32) = start - 86400 + (86400 : Nat) := by
      rw [hseed]
      split <;> omega
    rw [hstart, mainLoop_eq]
    simp
  · rename_i hlt
    rw [mainLoop, if_neg]
    rw [hseed]
    split <;> omega

end Solver

/-- Within a day after the encryption, one of the keys in the list decrypts the file. -/
theorem listed {DATABASE DATABASE' : Database} {time : Int} {buffer buffer' : Vector UInt8 DES_KEY_SIZE}
    {data uuid id file : Bytes}
    (h : do_encrypt provider host DATABASE time buffer data uuid = (some (id, file), DATABASE'))
    {start : Int} (hlow : time ≤ start) (hhigh : start < time + 86400) (hstart : 0 ≤ start)
    (hint : start < 2 ^ 31) :
    ∃ line ∈ Solver.main buffer' start, ∃ key, from_hex line = some key ∧
      provider.CryptDecrypt key file = some data := by
  have hfile : provider.CryptEncrypt (keyOf (UInt32.ofInt time)).toList data = some file := by
    rw [do_encrypt, generate_key_eq] at h
    cases hfile : provider.CryptEncrypt (keyOf (UInt32.ofInt time)).toList data with
    | none => simp [hfile] at h
    | some file' =>
      simp only [hfile, Prod.mk.injEq, Option.map_eq_some_iff] at h
      obtain ⟨⟨_, _, _, rfl⟩, -⟩ := h
      rfl
  refine ⟨to_hex (keyOf (UInt32.ofInt time)), ?_, _, from_hex_to_hex _,
    provider.decrypt_encrypt _ _ _ hfile⟩
  rw [Solver.main_eq buffer' hstart, if_pos hint, List.mem_map]
  have htime : start - ((start - time).toNat : Int) = time := by omega
  exact ⟨(start - time).toNat, List.mem_range.mpr (by omega), by rw [htime]⟩

theorem listed_flag : ∃ line ∈ Solver.main (Vector.replicate 8 0) 1583020860, ∃ key,
    from_hex line = some key ∧ plainProvider.CryptDecrypt key sampleFile = some (ascii "flag") :=
  listed plainProvider sampleHost do_encrypt_sample (by decide) (by decide) (by decide) (by decide)

end CtfChallenges.Chameleon
