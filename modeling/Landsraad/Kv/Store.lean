import Landsraad.Library.Bytes
import Landsraad.Library.OrderedStore
import Landsraad.Raft.Storage

/-!
# The replicated key-value store

Commands are opaque bytes to consensus; this is where they get their meaning. A command that is
malformed or empty is ignored.
-/

namespace Landsraad.Kv

open Bytes OrderedStore

inductive Command
  | put (key value : List UInt8)
  | delete (key : List UInt8)
deriving DecidableEq, Repr

namespace Command

def key : Command → List UInt8
  | put k _ => k
  | delete k => k

/-- `1, key_len u32 LE, key, value` for `put`; `2, key` for `delete`. A length beyond 32 bits is
cut off. -/
def encode : Command → List UInt8
  | put k v => 1 :: (leBytes 4 k.length ++ k ++ v)
  | delete k => 2 :: k

/-- The first `n` bytes, if there are so many. -/
def first (n : Nat) (bytes : List UInt8) : Option (List UInt8) :=
  if n ≤ bytes.length then some (bytes.take n) else none

/-- The bytes from position `n` on, if that is not beyond the end. -/
def rest (n : Nat) (bytes : List UInt8) : Option (List UInt8) :=
  if n ≤ bytes.length then some (bytes.drop n) else none

def decode : List UInt8 → Option Command
  | [] => none
  | kind :: bytes =>
    if kind = 1 then do
      let len := leValue (← first 4 bytes)
      let body ← rest 4 bytes
      let key ← first len body
      pure (put key (body.drop len))
    else if kind = 2 then some (delete bytes)
    else none

end Command

/-- A `BTreeMap` of bytes. -/
abbrev ByteMap := Std.ExtTreeMap (List UInt8) (List UInt8) compare

structure Store where
  map : ByteMap

namespace Store

def new : Store := ⟨∅⟩

def apply (s : Store) (e : Entry) : Store :=
  match Command.decode e.command with
  | some (.put k v) => ⟨s.map.insert k v⟩
  | some (.delete k) => ⟨s.map.erase k⟩
  | none => s

def get (s : Store) (key : List UInt8) : Option (List UInt8) := s.map[key]?

def applyAll (s : Store) (entries : List Entry) : Store := entries.foldl apply s

end Store

/-- The state after applying `entries` in order to an empty store. -/
def replay (entries : List Entry) : Store := Store.new.applyAll entries

/-! ## The format of commands -/

namespace Command

variable {b bytes : List UInt8} {c : Command} {k v : List UInt8} {n : Nat}

theorem first_eq_some {xs : List UInt8} : first n bytes = some xs ↔
    n ≤ bytes.length ∧ bytes.take n = xs := by
  unfold first
  split <;> simp [*]

theorem rest_eq_some {xs : List UInt8} : rest n bytes = some xs ↔
    n ≤ bytes.length ∧ bytes.drop n = xs := by
  unfold rest
  split <;> simp [*]

@[simp] theorem decode_delete (k : List UInt8) : decode (2 :: k) = some (delete k) := rfl

theorem decode_put_iff : decode (1 :: bytes) = some c ↔
    ∃ len body k v, bytes = len ++ body ∧ len.length = 4 ∧ body = k ++ v ∧
      k.length = leValue len ∧ c = put k v := by
  simp only [decode, if_true, Option.bind_eq_bind, Option.bind_eq_some_iff, first_eq_some,
    rest_eq_some, Option.pure_def, Option.some.injEq]
  constructor
  · rintro ⟨len, ⟨h4, rfl⟩, body, ⟨_, rfl⟩, k, ⟨hlen, rfl⟩, rfl⟩
    refine ⟨bytes.take 4, bytes.drop 4, _, _, (List.take_append_drop 4 bytes).symm, ?_,
      (List.take_append_drop _ _).symm, ?_, rfl⟩
    · rw [List.length_take, min_eq_left h4]
    · rw [List.length_take, min_eq_left hlen]
  · rintro ⟨len, body, k, v, rfl, hlen, rfl, hk, rfl⟩
    have hdrop : (len ++ (k ++ v)).drop 4 = k ++ v := List.drop_left' hlen
    have hfits : 4 ≤ (len ++ (k ++ v)).length := by
      rw [List.length_append, hlen]
      omega
    refine ⟨len, ⟨hfits, List.take_left' hlen⟩, k ++ v, ⟨hfits, hdrop⟩, k, ⟨?_, ?_⟩, ?_⟩
    · rw [List.length_append, hk]
      omega
    · exact List.take_left' hk
    · rw [List.drop_left' hk]

theorem decode_put_eq_some (hk : k.length < 256 ^ 4) :
    decode (1 :: bytes) = some (put k v) ↔ bytes = leBytes 4 k.length ++ k ++ v := by
  rw [decode_put_iff]
  constructor
  · rintro ⟨len, body, k', v', rfl, hlen, rfl, hkey, hc⟩
    cases hc
    rw [((leValue_eq_iff hlen).mp hkey.symm).2, List.append_assoc]
  · rintro rfl
    refine ⟨leBytes 4 k.length, k ++ v, k, v, List.append_assoc _ _ _, length_leBytes, rfl, ?_, rfl⟩
    exact (leValue_leBytes hk).symm

theorem eq_encode_of_decode (h : decode b = some c) : b = c.encode := by
  cases b with
  | nil => cases h
  | cons kind bytes =>
    by_cases h₁ : kind = 1
    · subst h₁
      obtain ⟨len, body, k, v, rfl, hlen, rfl, hkey, rfl⟩ := decode_put_iff.mp h
      rw [encode, ((leValue_eq_iff hlen).mp hkey.symm).2, List.append_assoc]
    · by_cases h₂ : kind = 2
      · subst h₂
        cases h
        rfl
      · simp [decode, h₁, h₂] at h

theorem decode_encode (hkey : c.key.length < 2 ^ 32) : decode c.encode = some c := by
  cases c with
  | put k v => exact (decode_put_eq_some hkey).mpr rfl
  | delete k => rfl

/-- The format is exact: the encoding of a command is the one byte string that decodes to it. No
two commands share an encoding, and none is encoded by the empty no-op. -/
theorem command_format_exact :
    (∀ (b : List UInt8) (c : Command), c.key.length < 2 ^ 32 →
      (decode b = some c ↔ b = c.encode)) ∧
    (∀ b c, decode b = some c → b = c.encode) ∧
    (∀ c, c.key.length < 2 ^ 32 → decode c.encode = some c) ∧
    ∀ b c, decode b = some c → b ≠ [] := by
  refine ⟨?_, ?_, ?_, ?_⟩
  · intro b c hkey
    constructor
    · exact eq_encode_of_decode
    · rintro rfl
      exact decode_encode hkey
  · intro b c h
    exact eq_encode_of_decode h
  · intro c hkey
    exact decode_encode hkey
  · rintro b c h rfl
    cases h

/-- A key with bytes that look like a length, and an empty key. -/
theorem command_format_exact_awkward :
    decode [1, 3, 0, 0, 0, 0, 1, 2, 9, 9] = some (put [0, 1, 2] [9, 9]) ∧
      encode (put [] [1]) = [1, 0, 0, 0, 0, 1] ∧ decode [2] = some (delete []) :=
  ⟨(command_format_exact.1 _ (put [0, 1, 2] [9, 9]) (by decide)).mpr rfl,
    (command_format_exact.2.1 [1, 0, 0, 0, 0, 1] (put [] [1]) (by decide)).symm,
    command_format_exact.2.2.1 (delete []) (by decide)⟩

end Command

/-! ## Replay -/

namespace Command

/-- The write of a command to the map. -/
def toOp : Command → LogOp (List UInt8) (List UInt8)
  | put k v => .put k v
  | delete k => .delete k

end Command

/-- The writes of the entries, of which a malformed one has none. -/
def writes (entries : List Entry) : List (LogOp (List UInt8) (List UInt8)) :=
  entries.filterMap fun e => (Command.decode e.command).map Command.toOp

theorem writes_append (xs ys : List Entry) : writes (xs ++ ys) = writes xs ++ writes ys :=
  List.filterMap_append

namespace Store

theorem ext {s s' : Store} (h : s.get = s'.get) : s = s' := by
  obtain ⟨m⟩ := s
  obtain ⟨m'⟩ := s'
  have hmap : m = m' := Std.ExtTreeMap.ext_getElem? fun k => congrFun h k
  rw [hmap]

/-- A store is the map that the writes of the applied entries make. -/
theorem get_applyAll (s : Store) (entries : List Entry) :
    (s.applyAll entries).get = LogOp.applyAll s.get (writes entries) := by
  induction entries generalizing s with
  | nil => rfl
  | cons e entries ih =>
    rw [applyAll, List.foldl_cons, ← applyAll, ih, writes, writes, List.filterMap_cons]
    cases hc : Command.decode e.command with
    | none =>
      simp only [Option.map_none]
      rw [apply, hc]
    | some c =>
      simp only [Option.map_some, LogOp.applyAll_cons]
      congr 1
      funext k
      cases c with
      | put k' v =>
        simp [apply, hc, get, Command.toOp, LogOp.apply, Std.ExtTreeMap.getElem?_insert,
          eq_comm (a := k)]
      | delete k' =>
        simp [apply, hc, get, Command.toOp, LogOp.apply, Std.ExtTreeMap.getElem?_erase,
          eq_comm (a := k)]

end Store

/-- Entries that a store has applied may be applied again, if all later ones are. -/
theorem overlapping_replay (xs : List Entry) {i j : Nat} (hji : j ≤ i) (hi : i ≤ xs.length) :
    (replay (xs.take i)).applyAll (xs.drop j) = replay xs := by
  have hsplit : xs.take i = xs.take j ++ (xs.take i).drop j := by
    have h := List.take_append_drop j (xs.take i)
    rw [List.take_take, min_eq_left hji] at h
    exact h.symm
  have hdrop : xs.drop j = (xs.take i).drop j ++ xs.drop i := by
    rw [← List.drop_append_of_le_length, List.take_append_drop]
    rw [List.length_take, min_eq_left hi]
    exact hji
  apply Store.ext
  rw [replay, replay, Store.get_applyAll, Store.get_applyAll, Store.get_applyAll, hdrop]
  nth_rewrite 1 [hsplit]
  rw [writes_append, writes_append, LogOp.applyAll_overlap, ← writes_append, ← writes_append,
    ← hsplit, List.take_append_drop]

/-- Two writes to one key around a no-op, a malformed command and a deletion. -/
def journal : List Entry :=
  [⟨1, []⟩, ⟨1, Command.encode (.put [7] [1])⟩, ⟨1, [1, 3, 0, 0, 0, 1]⟩,
    ⟨2, Command.encode (.delete [7])⟩, ⟨2, Command.encode (.put [7] [2])⟩]

theorem overlapping_replay_journal :
    (replay (journal.take 4)).applyAll (journal.drop 1) = replay journal ∧
      (replay (journal.take 4)).get [7] = none ∧
      ((replay (journal.take 4)).applyAll (journal.drop 1)).get [7] = some [2] := by
  have hreplay : (replay (journal.take 4)).applyAll (journal.drop 1) = replay journal :=
    overlapping_replay journal (by decide) (by decide)
  exact ⟨hreplay, by decide +kernel, by rw [hreplay]; decide +kernel⟩

end Landsraad.Kv
