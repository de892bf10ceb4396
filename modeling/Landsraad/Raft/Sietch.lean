import Landsraad.Library.OrderedStore
import Landsraad.Raft.Codec
import Landsraad.Raft.Storage

/-!
# Durable storage

`SietchStorage` keeps the term and the vote under one key of an ordered store of bytes, and each
log entry under a key of its own, whose order is that of the indices. The store is another
crate's.
-/

namespace Landsraad

open Bytes Checked OrderedStore

/-- A store of bytes, with the directory it lies in. -/
abbrev ByteStore (κ : Type) := Store UInt8 (List UInt8) κ

structure SietchStorage (κ : Type) where
  store : κ
  lastIndex : Nat
deriving DecidableEq, Repr

namespace SietchStorage

/-- The key `h`. -/
def hardStateKey : List UInt8 := [104]

/-- The byte `e`. -/
def entryPrefix : UInt8 := 101

def noVote : Nat := UInt64.size - 1

def entryKey (index : Nat) : List UInt8 := entryPrefix :: beBytes 8 index

def hardStateBytes (term : Nat) (votedFor : Option Nat) : List UInt8 :=
  leBytes 8 term ++ leBytes 8 (votedFor.getD noVote)

def entryBytes (e : Entry) : List UInt8 := leBytes 8 e.term ++ e.command

variable {κ : Type} [ByteStore κ]

def openDir (dir : κ) : Option (SietchStorage κ) := do
  let store ← Store.reopen dir
  pure ⟨store, (Store.scan store [entryPrefix]).length⟩

def loadHardState (store : κ) : Checked (Nat × Option Nat) :=
  match Store.get store hardStateKey with
  | some b =>
    if b.length = 16 then do
      let term ← Reader.word 8 (← slice b 0 8)
      let vote ← Reader.word 8 (← slice b 8 b.length)
      pure (term, if vote ≠ noVote then some vote else none)
    else .error (.failStop "fail-stop: corrupt raft hard state")
  | none => .ok (0, none)

/-- The entries of the scanned pairs, the first of which is at position `i`. -/
def loadEntries : Nat → List (List UInt8 × List UInt8) → Checked (List Entry)
  | _, [] => pure []
  | i, (key, val) :: pairs => do
    let index ← add i 1
    assert (key = entryKey index) "fail-stop: raft log has a gap or misordered entry"
    assert (8 ≤ val.length) "fail-stop: corrupt raft log entry"
    let term ← Reader.word 8 (← slice val 0 8)
    let command ← slice val 8 val.length
    let log ← loadEntries (i + 1) pairs
    pure (⟨term, command⟩ :: log)

/-- The writes that append the entries after `last`, the first of which is at position `i`. -/
def putEntries (last : Nat) : Nat → List Entry → Checked (List (LogOp (List UInt8) (List UInt8)))
  | _, [] => pure []
  | i, e :: entries => do
    let index ← add (← add last 1) i
    let ops ← putEntries last (i + 1) entries
    pure (.put (entryKey index) (entryBytes e) :: ops)

/-- The writes that delete the entries from `index` to `last`. -/
def deleteEntries (index last : Nat) : List (LogOp (List UInt8) (List UInt8)) :=
  (List.range' index (last + 1 - index)).map fun i => .delete (entryKey i)

instance : Storage (SietchStorage κ) where
  load s := do
    let (term, votedFor) ← loadHardState s.store
    let log ← loadEntries 0 (Store.scan s.store [entryPrefix])
    pure (⟨term, votedFor, log⟩, { s with lastIndex := log.length })
  saveHardState s term votedFor := do
    let store ← expect (Store.put s.store hardStateKey (hardStateBytes term votedFor))
      "fail-stop: cannot persist raft hard state"
    pure { s with store }
  append s entries := do
    let ops ← putEntries s.lastIndex 0 entries
    if ops.isEmpty then pure s
    else do
      let store ← expect (Store.applyBatch s.store ops) "fail-stop: cannot persist raft log"
      let lastIndex ← add s.lastIndex entries.length
      pure ⟨store, lastIndex⟩
  truncateFrom s index :=
    if index > s.lastIndex then pure s
    else do
      let store ← expect (Store.applyBatch s.store (deleteEntries index s.lastIndex))
        "fail-stop: cannot truncate raft log"
      pure ⟨store, index - 1⟩

end SietchStorage

/-! ## Runs of a storage -/

inductive Mutation
  | saveHardState (term : Nat) (votedFor : Option Nat)
  | append (entries : List Entry)
  | truncateFrom (index : Nat)
deriving DecidableEq, Repr

inductive StorageOp
  | mutate (m : Mutation)
  | load
  | reopen
  /-- The process dies while it mutates the storage, and the storage is opened again. The mutation
  has reached the disk or it has not. -/
  | crash (m : Mutation) (applied : Bool)
deriving DecidableEq, Repr

section

variable {σ : Type} [Storage σ]

def Mutation.run (s : σ) : Mutation → Checked σ
  | .saveHardState term votedFor => Storage.saveHardState s term votedFor
  | .append entries => Storage.append s entries
  | .truncateFrom index => Storage.truncateFrom s index

/-- One operation on a storage that `reopen` closes and opens again. -/
def StorageOp.run (reopen : σ → Checked σ) (s : σ) : StorageOp → Checked σ
  | .mutate m => m.run s
  | .load => do
    let (_, s) ← Storage.load s
    pure s
  | .reopen => reopen s
  | .crash m applied => do
    let s ← if applied then m.run s else pure s
    reopen s

def StorageOp.runAll (reopen : σ → Checked σ) (s : σ) (ops : List StorageOp) : Checked σ :=
  ops.foldlM (StorageOp.run reopen) s

end

namespace SietchStorage

variable {κ : Type} [ByteStore κ]

/-- The storage in a directory, for a caller that stops where it cannot be opened. -/
def openOrStop (dir : κ) : Checked (SietchStorage κ) :=
  expect (openDir dir) "cannot open raft storage"

/-- Opens a directory and performs the operations on the storage in it. -/
def session (dir : κ) (ops : List StorageOp) : Checked (SietchStorage κ) := do
  let s ← openOrStop dir
  StorageOp.runAll (fun s => openOrStop s.store) s ops

end SietchStorage

/-- The operations on the in-memory storage, which a closed handle outlives. -/
def MemStorage.session (ops : List StorageOp) : Checked MemStorage :=
  StorageOp.runAll pure Persistent.default ops

/-! ## Rows -/

namespace SietchStorage

theorem wordSize_eq : wordSize = 256 ^ 8 := by decide

theorem entryKey_lt {i j : Nat} (hj : j < wordSize) (h : i < j) : entryKey i < entryKey j := by
  rw [wordSize_eq] at hj
  rw [entryKey, entryKey, List.cons_lt_cons_iff]
  exact .inr ⟨rfl, beBytes_lt_beBytes hj h⟩

theorem entryKey_inj {i j : Nat} (hi : i < wordSize) (hj : j < wordSize)
    (h : entryKey i = entryKey j) : i = j := by
  rw [wordSize_eq] at hi hj
  exact beBytes_inj hi hj (List.tail_eq_of_cons_eq h)

theorem prefix_entryKey (i : Nat) : [entryPrefix] <+: entryKey i := List.prefix_append _ _

theorem hardStateKey_ne {k : List UInt8} (h : [entryPrefix] <+: k) : hardStateKey ≠ k := by
  obtain ⟨rest, rfl⟩ := h
  intro h
  cases h

/-- The pairs of a log whose first entry has the index `i`. -/
def rows : Nat → List Entry → List (List UInt8 × List UInt8)
  | _, [] => []
  | i, e :: log => (entryKey i, entryBytes e) :: rows (i + 1) log

variable {i : Nat} {log entries : List Entry} {k v : List UInt8}

@[simp] theorem length_rows : (rows i log).length = log.length := by
  induction log generalizing i with
  | nil => rfl
  | cons e log ih => rw [rows, List.length_cons, List.length_cons, ih]

theorem rows_append :
    rows i (log ++ entries) = rows i log ++ rows (i + log.length) entries := by
  induction log generalizing i with
  | nil => rfl
  | cons e log ih =>
    rw [List.cons_append, rows, rows, ih, List.cons_append, List.length_cons]
    congr 3
    omega

theorem mem_rows : (k, v) ∈ rows i log ↔
    ∃ j e, log[j]? = some e ∧ k = entryKey (i + j) ∧ v = entryBytes e := by
  induction log generalizing i with
  | nil => simp [rows]
  | cons e log ih =>
    rw [rows, List.mem_cons, ih]
    constructor
    · rintro (h | ⟨j, e', he, rfl, rfl⟩)
      · cases h
        exact ⟨0, e, rfl, rfl, rfl⟩
      · exact ⟨j + 1, e', he, by rw [Nat.add_right_comm, Nat.add_assoc], rfl⟩
    · rintro ⟨j, e', he, rfl, rfl⟩
      cases j with
      | zero =>
        cases he
        exact .inl rfl
      | succ j => exact .inr ⟨j, e', he, by rw [Nat.add_right_comm, Nat.add_assoc], rfl⟩

theorem prefix_of_mem_rows (h : (k, v) ∈ rows i log) : [entryPrefix] <+: k := by
  obtain ⟨j, e, -, rfl, -⟩ := mem_rows.mp h
  exact prefix_entryKey (i + j)

/-- The keys of a log are in the order of its entries. -/
theorem rows_sorted (h : i + log.length ≤ wordSize) :
    (rows i log).Pairwise fun a b => a.1 < b.1 := by
  induction log generalizing i with
  | nil => exact .nil
  | cons e log ih =>
    rw [List.length_cons] at h
    apply List.Pairwise.cons
    · rintro ⟨k, v⟩ hmem
      obtain ⟨j, e', he, rfl, rfl⟩ := mem_rows.mp hmem
      have hj : j < log.length := (List.getElem?_eq_some_iff.mp he).1
      apply entryKey_lt <;> omega
    · exact ih (by omega)

theorem deleteEntries_eq (index last : Nat) :
    deleteEntries index last =
      ((List.range' index (last + 1 - index)).map entryKey).map .delete := by
  rw [deleteEntries, List.map_map]
  rfl

/-- The rows of a truncated log are those whose key is not deleted. -/
theorem mem_rows_take {index : Nat} (bound : log.length < wordSize) :
    (k, v) ∈ rows 1 (log.take (index - 1)) ↔
      (k, v) ∈ rows 1 log ∧ k ∉ (List.range' index (log.length + 1 - index)).map entryKey := by
  simp only [mem_rows, List.mem_map, List.mem_range'_1]
  constructor
  · rintro ⟨j, e, he, rfl, rfl⟩
    have hj := (List.getElem?_eq_some_iff.mp he).1
    rw [List.length_take] at hj
    rw [List.getElem?_take_of_lt (by omega)] at he
    refine ⟨⟨j, e, he, rfl, rfl⟩, ?_⟩
    rintro ⟨i, hi, hkey⟩
    have hij : i = 1 + j := entryKey_inj (by omega) (by omega) hkey
    omega
  · rintro ⟨⟨j, e, he, rfl, rfl⟩, hkeep⟩
    have hj := (List.getElem?_eq_some_iff.mp he).1
    refine ⟨j, e, ?_, rfl, rfl⟩
    rw [List.getElem?_take_of_lt, he]
    by_contra hge
    exact hkeep ⟨1 + j, by omega, rfl⟩

theorem putEntries_rows {last : Nat} (h : last + i + entries.length < wordSize) :
    putEntries last i entries =
      .ok ((rows (last + 1 + i) entries).map fun row => .put row.1 row.2) := by
  induction entries generalizing i with
  | nil => rfl
  | cons e entries ih =>
    rw [List.length_cons] at h
    have hlast : add last 1 = .ok (last + 1) := add_eq_ok.mpr ⟨by omega, rfl⟩
    have hindex : add (last + 1) i = .ok (last + 1 + i) := add_eq_ok.mpr ⟨by omega, rfl⟩
    rw [putEntries, hlast, ok_bind, hindex, ok_bind, ih (by omega)]
    rfl

/-- The first word of a value. -/
theorem slice_first (n : Nat) (rest : List UInt8) :
    slice (leBytes 8 n ++ rest) 0 8 = .ok (leBytes 8 n) := by
  rw [slice_eq_ok, List.length_append, length_leBytes]
  exact ⟨by omega, by omega, (List.take_left' length_leBytes).symm⟩

/-- The rest of a value. -/
theorem slice_rest (n : Nat) (rest : List UInt8) :
    slice (leBytes 8 n ++ rest) 8 (leBytes 8 n ++ rest).length = .ok rest := by
  rw [slice_eq_ok, List.take_length, List.length_append, length_leBytes]
  exact ⟨by omega, le_refl _, (List.drop_left' length_leBytes).symm⟩

theorem word_leBytes {n : Nat} (h : n < wordSize) : Reader.word 8 (leBytes 8 n) = .ok n := by
  rw [wordSize_eq] at h
  rw [Reader.word, if_pos length_leBytes, leValue_leBytes h]

/-- The loop of `load` over the rows of a log fails none of its checks. -/
theorem loadEntries_rows (terms : ∀ e ∈ log, e.term < wordSize) (h : i + log.length < wordSize) :
    loadEntries i (rows (i + 1) log) = .ok log := by
  induction log generalizing i with
  | nil => rfl
  | cons e log ih =>
    rw [List.length_cons] at h
    have hindex : add i 1 = .ok (i + 1) := add_eq_ok.mpr ⟨by omega, rfl⟩
    have hlen : 8 ≤ (entryBytes e).length := by simp [entryBytes]
    have hrest : loadEntries (i + 1) (rows (i + 1 + 1) log) = .ok log :=
      ih (fun e he => terms e (List.mem_cons_of_mem _ he)) (by omega)
    rw [rows, loadEntries, hindex, ok_bind, assert_of rfl, ok_bind,
      assert_of hlen, ok_bind, entryBytes, slice_first, ok_bind,
      word_leBytes (terms e (by simp)), ok_bind, slice_rest, ok_bind, hrest]
    rfl

end SietchStorage

/-! ## What the store holds -/

/-- The values fit the types of the fields, and the vote differs from the word for no vote. -/
structure Persistent.Typed (p : Persistent) : Prop where
  term : p.term < wordSize
  vote : ∀ n ∈ p.votedFor, n < SietchStorage.noVote
  entries : ∀ e ∈ p.log, e.term < wordSize
  length : p.log.length < wordSize

namespace SietchStorage

/-- The map of the store spells out a persistent state, and binds no other key of an entry. -/
structure Represents (contents : List UInt8 → Option (List UInt8)) (p : Persistent) : Prop where
  hardState : contents hardStateKey = none ∧ p.term = 0 ∧ p.votedFor = none ∨
    contents hardStateKey = some (hardStateBytes p.term p.votedFor)
  entries : ∀ k v, [entryPrefix] <+: k → (contents k = some v ↔ (k, v) ∈ rows 1 p.log)

namespace Represents

variable {contents : List UInt8 → Option (List UInt8)} {p : Persistent}

theorem empty (h : ∀ k, contents k = none) : Represents contents .default where
  hardState := .inl ⟨h hardStateKey, rfl, rfl⟩
  entries k v _ := by
    rw [h k]
    simp [Persistent.default, rows]

theorem saveHardState (h : Represents contents p) (term : Nat) (votedFor : Option Nat) :
    Represents ((LogOp.put hardStateKey (hardStateBytes term votedFor)).apply contents)
      { p with term, votedFor } where
  hardState := by
    right
    rw [LogOp.apply, if_pos rfl]
  entries k v hk := by
    rw [LogOp.apply, if_neg (hardStateKey_ne hk).symm]
    exact h.entries k v hk

/-- A batch of writes under the keys of entries keeps the hard state. -/
theorem hardState_applyAll {ops : List (LogOp (List UInt8) (List UInt8))}
    (h : Represents contents p)
    (keys : ∀ k ∈ ops.map LogOp.key, [entryPrefix] <+: k) :
    LogOp.applyAll contents ops hardStateKey = none ∧ p.term = 0 ∧ p.votedFor = none ∨
      LogOp.applyAll contents ops hardStateKey = some (hardStateBytes p.term p.votedFor) := by
  have hnot : hardStateKey ∉ ops.map LogOp.key := fun hk => hardStateKey_ne (keys _ hk) rfl
  rw [LogOp.applyAll_of_notMem hnot]
  exact h.hardState

theorem append {entries : List Entry} (h : Represents contents p)
    (bound : p.log.length + entries.length < wordSize) :
    Represents
      (LogOp.applyAll contents
        ((rows (p.log.length + 1) entries).map fun row => .put row.1 row.2))
      { p with log := p.log ++ entries } where
  hardState := by
    apply h.hardState_applyAll
    intro k hk
    simp only [List.map_map, List.mem_map, Prod.exists] at hk
    obtain ⟨k, v, hrow, rfl⟩ := hk
    exact prefix_of_mem_rows hrow
  entries k v hk := by
    have hall : (rows 1 (p.log ++ entries)).Pairwise fun a b => a.1 < b.1 := by
      apply rows_sorted
      rw [List.length_append]
      omega
    rw [rows_append, Nat.add_comm 1] at hall
    obtain ⟨-, hnew, hacross⟩ := List.pairwise_append.mp hall
    have nodup : ((rows (p.log.length + 1) entries).map Prod.fst).Nodup :=
      (List.pairwise_map.mpr hnew).imp LT.lt.ne
    rw [LogOp.applyAll_puts nodup, h.entries k v hk, rows_append, List.mem_append,
      Nat.add_comm 1, or_comm]
    constructor
    · rintro (⟨-, hold⟩ | hnew)
      · exact .inl hold
      · exact .inr hnew
    · rintro (hold | hnew)
      · refine .inl ⟨fun hmem => ?_, hold⟩
        obtain ⟨row, hrow, hkey⟩ := List.mem_map.mp hmem
        have hlt : k < row.1 := hacross (k, v) hold row hrow
        exact hlt.ne hkey.symm
      · exact .inr hnew

theorem truncate (h : Represents contents p) (bound : p.log.length < wordSize) (index : Nat) :
    Represents (LogOp.applyAll contents (deleteEntries index p.log.length))
      { p with log := p.log.take (index - 1) } where
  hardState := by
    apply h.hardState_applyAll
    intro k hk
    simp only [deleteEntries, List.map_map, List.mem_map] at hk
    obtain ⟨i, -, rfl⟩ := hk
    exact prefix_entryKey i
  entries k v hk := by
    rw [deleteEntries_eq, LogOp.applyAll_deletes, mem_rows_take bound, ← h.entries k v hk]
    split
    · next hdel => simp [hdel]
    · next hkeep => simp [hkeep]

end Represents

/-! ## Refinement -/

variable {κ : Type} [ByteStore κ]

/-- A panic that reports a failed operation of the store. -/
def StoreFailed (e : Panic) : Prop :=
  e = .failStop "fail-stop: cannot persist raft hard state" ∨
  e = .failStop "fail-stop: cannot persist raft log" ∨
  e = .failStop "fail-stop: cannot truncate raft log" ∨
  e = .failStop "cannot open raft storage"

variable (κ) in
/-- The panics left to a session: none if no operation of the store fails. -/
def MayPanic (e : Panic) : Prop := StoreFailed e ∧ ¬ Reliable κ

/-- The storage holds the persistent state, and its cached index is that of the last entry. -/
structure Mirrors (s : SietchStorage κ) (p : Persistent) : Prop where
  holds : Represents (Store.get s.store) p
  lastIndex : s.lastIndex = p.log.length

variable {s : SietchStorage κ} {p : Persistent}

theorem scan_rows (lawful : Lawful κ) {store : κ} (h : Represents (Store.get store) p)
    (bound : p.log.length < wordSize) : Store.scan store [entryPrefix] = rows 1 p.log := by
  apply lawful.scan_eq
  · exact rows_sorted (by omega)
  · exact h.entries
  · intro k v hmem
    exact prefix_of_mem_rows hmem

theorem expect_ensures {α : Type} {Q : α → Prop} {x : Option α} {text : String}
    (failed : StoreFailed (.failStop text)) (succeeds : Reliable κ → x.isSome)
    (h : ∀ a, x = some a → Q a) : Ensures (MayPanic κ) Q (expect x text) := by
  apply Ensures.expect
  · intro hnone
    refine ⟨failed, fun reliable => ?_⟩
    have hsome := succeeds reliable
    rw [hnone] at hsome
    cases hsome
  · exact h

theorem openOrStop_ensures (lawful : Lawful κ) {dir : κ} (h : Represents (Store.get dir) p)
    (bound : p.log.length < wordSize) :
    Ensures (MayPanic κ) (Mirrors · p) (openOrStop dir) := by
  apply expect_ensures (.inr (.inr (.inr rfl)))
  · intro reliable
    obtain ⟨store, hstore⟩ := Option.isSome_iff_exists.mp (reliable.reopen dir)
    rw [openDir, hstore]
    rfl
  · intro s hs
    obtain ⟨store, hstore, hs⟩ := Option.bind_eq_some_iff.mp hs
    cases hs
    rw [← lawful.get_reopen hstore] at h
    refine ⟨h, ?_⟩
    rw [scan_rows lawful h bound, length_rows]

theorem applyBatch_ensures (lawful : Lawful κ) {store : κ} {text : String}
    {ops : List (LogOp (List UInt8) (List UInt8))} (failed : StoreFailed (.failStop text))
    (h : Represents (LogOp.applyAll (Store.get store) ops) p) :
    Ensures (MayPanic κ) (fun store' => Represents (Store.get store') p)
      (expect (Store.applyBatch store ops) text) := by
  apply expect_ensures failed
  · intro reliable
    exact reliable.applyBatch store ops
  · intro store' hstore
    rw [lawful.get_applyBatch hstore]
    exact h

theorem loadHardState_eq (h : Represents (Store.get s.store) p) (typed : p.Typed) :
    loadHardState s.store = .ok (p.term, p.votedFor) := by
  rcases h.hardState with ⟨hnone, hterm, hvote⟩ | hsome
  · rw [loadHardState, hnone, hterm, hvote]
  · have hnoVote : noVote < wordSize := by decide
    have hword : p.votedFor.getD noVote < wordSize := by
      cases hv : p.votedFor with
      | none => exact hnoVote
      | some n => exact (typed.vote n hv).trans hnoVote
    have hlen : (hardStateBytes p.term p.votedFor).length = 16 := by simp [hardStateBytes]
    simp only [loadHardState, hsome]
    rw [if_pos hlen, hardStateBytes, slice_first, ok_bind, word_leBytes typed.term, ok_bind,
      slice_rest, ok_bind, word_leBytes hword, ok_bind]
    cases hv : p.votedFor with
    | none => rfl
    | some n =>
      have hne : n ≠ noVote := (typed.vote n hv).ne
      rw [Option.getD_some, if_pos hne]
      rfl

/-- `load` fails none of its checks, and returns the state the storage holds. -/
theorem load_eq (lawful : Lawful κ) (h : Mirrors s p) (typed : p.Typed) :
    Storage.load s = .ok (p, s) := by
  have hlog : loadEntries 0 (Store.scan s.store [entryPrefix]) = .ok p.log := by
    rw [scan_rows lawful h.holds typed.length]
    apply loadEntries_rows typed.entries
    rw [Nat.zero_add]
    exact typed.length
  show (do
    let (term, votedFor) ← loadHardState s.store
    let log ← loadEntries 0 (Store.scan s.store [entryPrefix])
    pure (Persistent.mk term votedFor log, SietchStorage.mk s.store log.length)) = _
  simp only [loadHardState_eq h.holds typed, hlog, ok_bind]
  rw [← h.lastIndex]
  rfl

theorem saveHardState_ensures (lawful : Lawful κ) (h : Mirrors s p) (term : Nat)
    (votedFor : Option Nat) :
    Ensures (MayPanic κ) (Mirrors · { p with term, votedFor })
      (Storage.saveHardState s term votedFor) := by
  have hput : Ensures (MayPanic κ)
      (fun store => Represents (Store.get store) { p with term, votedFor })
      (expect (Store.put s.store hardStateKey (hardStateBytes term votedFor))
        "fail-stop: cannot persist raft hard state") := by
    apply expect_ensures (.inl rfl)
    · intro reliable
      exact reliable.put s.store hardStateKey (hardStateBytes term votedFor)
    · intro store hstore
      rw [lawful.get_put hstore]
      exact h.holds.saveHardState term votedFor
  apply hput.bind
  intro store holds
  show Mirrors { s with store } _
  exact ⟨holds, h.lastIndex⟩

theorem append_ensures (lawful : Lawful κ) (h : Mirrors s p) (entries : List Entry)
    (bound : p.log.length + entries.length < wordSize) :
    Ensures (MayPanic κ) (Mirrors · { p with log := p.log ++ entries })
      (Storage.append s entries) := by
  show Ensures (MayPanic κ) _ (do
    let ops ← putEntries s.lastIndex 0 entries
    if ops.isEmpty then pure s
    else do
      let store ← expect (Store.applyBatch s.store ops) "fail-stop: cannot persist raft log"
      let lastIndex ← add s.lastIndex entries.length
      pure ⟨store, lastIndex⟩)
  have hindex : add s.lastIndex entries.length = .ok (p.log.length + entries.length) := by
    rw [h.lastIndex, add_eq_ok]
    exact ⟨bound, rfl⟩
  rw [hindex, h.lastIndex, putEntries_rows (by omega), ok_bind]
  cases entries with
  | nil =>
    rw [List.append_nil]
    exact Ensures.pure h
  | cons e entries =>
    apply (applyBatch_ensures lawful (.inr (.inl rfl)) (h.holds.append bound)).bind
    intro store holds
    apply Ensures.pure
    refine ⟨holds, ?_⟩
    rw [List.length_append]

theorem truncateFrom_ensures (lawful : Lawful κ) (h : Mirrors s p) (index : Nat)
    (bound : p.log.length < wordSize) :
    Ensures (MayPanic κ) (Mirrors · { p with log := p.log.take (index - 1) })
      (Storage.truncateFrom s index) := by
  show Ensures (MayPanic κ) _ (if index > s.lastIndex then pure s else do
    let store ← expect (Store.applyBatch s.store (deleteEntries index s.lastIndex))
      "fail-stop: cannot truncate raft log"
    pure ⟨store, index - 1⟩)
  rw [h.lastIndex]
  split
  · next hbeyond =>
    rw [List.take_of_length_le (by omega)]
    exact Ensures.pure h
  · next hwithin =>
    apply (applyBatch_ensures lawful (.inr (.inr (.inl rfl))) (h.holds.truncate bound index)).bind
    intro store holds
    apply Ensures.pure
    refine ⟨holds, ?_⟩
    show index - 1 = (p.log.take (index - 1)).length
    rw [List.length_take]
    omega

end SietchStorage

/-! ## Sessions -/

/-- The terms fit a machine word, and the vote differs from the word for no vote. -/
def Mutation.Typed : Mutation → Prop
  | .saveHardState term votedFor =>
    term < wordSize ∧ ∀ n ∈ votedFor, n < SietchStorage.noVote
  | .append entries => ∀ e ∈ entries, e.term < wordSize
  | .truncateFrom _ => True

def StorageOp.Typed : StorageOp → Prop
  | .mutate m => m.Typed
  | .load => True
  | .reopen => True
  | .crash m _ => m.Typed

namespace SietchStorage

variable {κ : Type} [ByteStore κ] {s : SietchStorage κ} {p p' : Persistent}

theorem typed_default : Persistent.default.Typed where
  term := by decide
  vote n h := by cases h
  entries e h := by cases h
  length := by decide

/-- A mutation keeps the types, up to the length of the log. -/
theorem typed_of_mutation {m : Mutation} (typed : p.Typed) (hm : m.Typed)
    (h : m.run p = .ok p') (bound : p'.log.length < wordSize) : p'.Typed := by
  cases m with
  | saveHardState term votedFor =>
    cases h
    exact ⟨hm.1, hm.2, typed.entries, typed.length⟩
  | append entries =>
    cases h
    refine ⟨typed.term, typed.vote, fun e he => ?_, bound⟩
    rcases List.mem_append.mp he with he | he
    · exact typed.entries e he
    · exact hm e he
  | truncateFrom index =>
    cases h
    exact ⟨typed.term, typed.vote, fun e he => typed.entries e (List.mem_of_mem_take he), bound⟩

theorem mutation_ensures (lawful : Lawful κ) {m : Mutation} (h : Mirrors s p) (typed : p.Typed)
    (hrun : m.run p = .ok p') (bound : p'.log.length < wordSize) :
    Ensures (MayPanic κ) (Mirrors · p') (m.run s) := by
  cases m with
  | saveHardState term votedFor =>
    cases hrun
    exact saveHardState_ensures lawful h term votedFor
  | append entries =>
    cases hrun
    rw [List.length_append] at bound
    exact append_ensures lawful h entries bound
  | truncateFrom index =>
    cases hrun
    exact truncateFrom_ensures lawful h index typed.length

theorem typed_of_op {op : StorageOp} (typed : p.Typed) (hop : op.Typed)
    (hrun : op.run pure p = .ok p') (bound : p'.log.length < wordSize) : p'.Typed := by
  cases op with
  | mutate m => exact typed_of_mutation typed hop hrun bound
  | load =>
    cases hrun
    exact typed
  | reopen =>
    cases hrun
    exact typed
  | crash m applied =>
    cases applied with
    | false =>
      cases hrun
      exact typed
    | true =>
      obtain ⟨p₁, hm, hp⟩ := bind_eq_ok.mp hrun
      cases hp
      exact typed_of_mutation typed hop hm bound

/-- Each operation keeps the storage in step with the in-memory one. -/
theorem op_ensures (lawful : Lawful κ) {op : StorageOp} (h : Mirrors s p) (typed : p.Typed)
    (hrun : op.run pure p = .ok p') (bound : p'.log.length < wordSize) :
    Ensures (MayPanic κ) (Mirrors · p') (op.run (fun s => openOrStop s.store) s) := by
  cases op with
  | mutate m => exact mutation_ensures lawful h typed hrun bound
  | load =>
    cases hrun
    have hrun : StorageOp.load.run (fun s => openOrStop s.store) s = .ok s := by
      rw [StorageOp.run, load_eq lawful h typed]
      rfl
    rw [hrun]
    exact h
  | reopen =>
    cases hrun
    exact openOrStop_ensures lawful h.holds typed.length
  | crash m applied =>
    cases applied with
    | false =>
      cases hrun
      exact openOrStop_ensures lawful h.holds typed.length
    | true =>
      -- The cached index dies with the process; only what the store holds is used.
      obtain ⟨p₁, hm, hp⟩ := bind_eq_ok.mp hrun
      cases hp
      apply (mutation_ensures lawful h typed hm bound).bind
      intro s' h'
      exact openOrStop_ensures lawful h'.holds bound

theorem runAll_ensures (lawful : Lawful κ) {ops : List StorageOp} (h : Mirrors s p)
    (typed : p.Typed) (hops : ∀ op ∈ ops, op.Typed)
    (short : ∀ ys, ys <+: ops → ∀ q, StorageOp.runAll pure p ys = .ok q →
      q.log.length < wordSize)
    (hrun : StorageOp.runAll pure p ops = .ok p') :
    Ensures (MayPanic κ) (fun s' => Storage.load s' = .ok (p', s'))
      (StorageOp.runAll (fun s => openOrStop s.store) s ops) := by
  induction ops generalizing s p with
  | nil =>
    cases hrun
    exact Ensures.pure (load_eq lawful h typed)
  | cons op ops ih =>
    rw [StorageOp.runAll, List.foldlM_cons] at hrun ⊢
    obtain ⟨p₁, hop, hrun⟩ := bind_eq_ok.mp hrun
    have bound : p₁.log.length < wordSize := by
      apply short [op] (List.prefix_append [op] ops)
      rw [StorageOp.runAll, List.foldlM_cons, hop]
      rfl
    apply (op_ensures lawful h typed hop bound).bind
    intro s₁ h₁
    apply ih h₁ (typed_of_op typed (hops op (by simp)) hop bound) _ _ hrun
    · exact fun op hmem => hops op (List.mem_cons_of_mem _ hmem)
    · intro ys hys q hq
      apply short (op :: ys) ((List.prefix_cons_inj op).mpr hys)
      rw [StorageOp.runAll, List.foldlM_cons, hop]
      exact hq

theorem session_ensures (lawful : Lawful κ) {dir : κ} (empty : ∀ k, Store.get dir k = none)
    {ops : List StorageOp} (hops : ∀ op ∈ ops, op.Typed)
    (short : ∀ ys, ys <+: ops → ∀ q, MemStorage.session ys = .ok q → q.log.length < wordSize)
    (hrun : MemStorage.session ops = .ok p) :
    Ensures (MayPanic κ) (fun s => Storage.load s = .ok (p, s)) (session dir ops) := by
  apply (openOrStop_ensures lawful (Represents.empty empty) typed_default.length).bind
  intro s h
  exact runAll_ensures lawful h typed_default hops short hrun

end SietchStorage

/-- The in-memory storage never panics. -/
theorem MemStorage.session_returns (ops : List StorageOp) :
    ∃ p, MemStorage.session ops = .ok p := by
  induction ops using List.reverseRecOn with
  | nil => exact ⟨.default, rfl⟩
  | append_singleton ops op ih =>
    obtain ⟨p, hp⟩ := ih
    rw [MemStorage.session, StorageOp.runAll, List.foldlM_append]
    rw [MemStorage.session, StorageOp.runAll] at hp
    rw [hp, ok_bind, List.foldlM_cons]
    cases op with
    | mutate m => cases m <;> exact ⟨_, rfl⟩
    | load => exact ⟨_, rfl⟩
    | reopen => exact ⟨_, rfl⟩
    | crash m applied => cases applied <;> cases m <;> exact ⟨_, rfl⟩

/-- Whatever operations are performed from an empty store on, `SietchStorage` loads what
`MemStorage` holds after them, and panics only where an operation of the store has failed. The
length of the log in memory is a machine word, as that of every vector. -/
theorem sietch_refines_mem {κ : Type} [ByteStore κ] (lawful : Lawful κ) (dir : κ)
    (empty : ∀ k, Store.get dir k = none) (ops : List StorageOp) (typed : ∀ op ∈ ops, op.Typed)
    (short : ∀ ys, ys <+: ops → ∀ q, MemStorage.session ys = .ok q → q.log.length < wordSize) :
    ∃ p, MemStorage.session ops = .ok p ∧
      (∀ s, SietchStorage.session dir ops = .ok s → Storage.load s = .ok (p, s)) ∧
      (∀ e, SietchStorage.session dir ops = .error e → SietchStorage.StoreFailed e) ∧
      (Reliable κ → ∃ s, SietchStorage.session dir ops = .ok s) := by
  obtain ⟨p, hp⟩ := MemStorage.session_returns ops
  have h := SietchStorage.session_ensures lawful empty typed short hp
  refine ⟨p, hp, ?_⟩
  cases hs : SietchStorage.session dir ops with
  | ok s =>
    rw [hs] at h
    refine ⟨fun s' hs' => ?_, fun e he => ?_, fun _ => ⟨s, rfl⟩⟩
    · cases hs'
      exact h
    · cases he
  | error e =>
    rw [hs] at h
    refine ⟨fun s hs => ?_, fun e' he => ?_, fun reliable => (h.2 reliable).elim⟩
    · cases hs
    · cases he
      exact h.1

/-- Truncations at both ends of the log and beyond it, reopenings, and crashes that keep or lose
their mutation. -/
def rehearsal : List StorageOp :=
  [.mutate (.saveHardState 3 (some 2)), .mutate (.append [⟨1, [97]⟩, ⟨1, []⟩, ⟨2, [99]⟩]),
    .mutate (.truncateFrom 7), .reopen, .mutate (.truncateFrom 3),
    .crash (.append [⟨3, [100]⟩]) true, .load, .crash (.saveHardState 4 none) true,
    .crash (.truncateFrom 0) false, .mutate (.append [⟨4, []⟩]), .reopen, .load]

/-- On a store kept as the log of its writes. -/
theorem sietch_refines_mem_rehearsal :
    ∃ s : SietchStorage (WriteLog UInt8 (List UInt8)),
      SietchStorage.session ⟨[]⟩ rehearsal = .ok s ∧
      Storage.load s = .ok (⟨4, none, [⟨1, [97]⟩, ⟨1, []⟩, ⟨3, [100]⟩, ⟨4, []⟩]⟩, s) := by
  have typed : ∀ op ∈ rehearsal, op.Typed := by
    simp [rehearsal, StorageOp.Typed, Mutation.Typed, wordSize, SietchStorage.noVote, UInt64.size]
  have short : ∀ ys ∈ rehearsal.inits, ∀ q ∈ (MemStorage.session ys).toOption,
      q.log.length < wordSize := by decide +kernel
  obtain ⟨p, hp, hload, -, hreturns⟩ := sietch_refines_mem WriteLog.lawful ⟨[]⟩ (fun _ => rfl)
    rehearsal typed fun ys hys q hq => short ys ((List.mem_inits ys rehearsal).mpr hys) q
      (by rw [hq]; rfl)
  obtain ⟨s, hs⟩ := hreturns WriteLog.reliable
  cases hp
  exact ⟨s, hs, hload s hs⟩

end Landsraad
