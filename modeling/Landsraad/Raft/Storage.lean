import Landsraad.Library.Checked
import Landsraad.Library.Ledger

/-!
# Entries, messages and persistent state

Node ids, terms and log indices are natural numbers. An index is 1-based; 0 means "before the
first entry".

A node reaches its persistent state only through the four operations of `Storage`, which
panic rather than report a failed write. `MemStorage` is the in-memory implementation.
`Journal` runs any other storage and also keeps the states before each write, so that a crash
can be placed between two writes of one handler.
-/

namespace Landsraad

structure Entry where
  term : Nat
  /-- Opaque to consensus. An empty command is the leadership no-op. -/
  command : List UInt8
deriving DecidableEq, Repr

instance : ReplicatedLog.Stamped Entry := ⟨Entry.term⟩

@[simp] theorem stamp_entry (e : Entry) : ReplicatedLog.stamp e = e.term := rfl

inductive Message
  | requestVote (term lastLogIndex lastLogTerm : Nat)
  | voteResponse (term : Nat) (granted : Bool)
  | appendEntries (term prevIndex prevTerm : Nat) (entries : List Entry) (leaderCommit : Nat)
  | appendResponse (term : Nat) (success : Bool) (matchIndex : Nat)
deriving DecidableEq, Repr

def Message.term : Message → Nat
  | .requestVote term .. => term
  | .voteResponse term _ => term
  | .appendEntries term .. => term
  | .appendResponse term .. => term

structure Persistent where
  term : Nat
  votedFor : Option Nat
  /-- `log[i]` is the entry at index `i + 1`. -/
  log : List Entry
deriving DecidableEq, Repr

def Persistent.default : Persistent := ⟨0, none, []⟩

class Storage (σ : Type) where
  load : σ → Checked (Persistent × σ)
  saveHardState : σ → Nat → Option Nat → Checked σ
  /-- Appends entries after the current last index. -/
  append : σ → List Entry → Checked σ
  /-- Removes the entry at `index` and everything after it. -/
  truncateFrom : σ → Nat → Checked σ

abbrev MemStorage := Persistent

instance : Storage MemStorage where
  load p := .ok (p, p)
  saveHardState p term votedFor := .ok { p with term, votedFor }
  append p entries := .ok { p with log := p.log ++ entries }
  truncateFrom p index := .ok { p with log := p.log.take (index - 1) }

/-- A storage together with the states it had before each write, the latest first. -/
structure Journal (σ : Type) where
  current : σ
  earlier : List σ
deriving DecidableEq, Repr

namespace Journal

variable {σ : Type}

def write (j : Journal σ) (s : σ) : Journal σ := ⟨s, j.current :: j.earlier⟩

/-- Every state of the storage, the present one first. -/
def states (j : Journal σ) : List σ := j.current :: j.earlier

/-- Undoes the last `lost` writes. -/
def rewind : Nat → Journal σ → Journal σ
  | lost + 1, ⟨_, s :: ss⟩ => rewind lost ⟨s, ss⟩
  | _, j => j

instance [Storage σ] : Storage (Journal σ) where
  load j := do
    let (p, s) ← Storage.load j.current
    pure (p, { j with current := s })
  saveHardState j term votedFor := j.write <$> Storage.saveHardState j.current term votedFor
  append j entries := j.write <$> Storage.append j.current entries
  truncateFrom j index := j.write <$> Storage.truncateFrom j.current index

end Journal

/-- The storage of a simulated node: what survives its crash. -/
abbrev Disk := Journal MemStorage

def Disk.empty : Disk := ⟨.default, []⟩

section

variable (d : Disk)

@[simp] theorem load_disk : Storage.load d = .ok (d.current, d) := rfl

@[simp] theorem saveHardState_disk (term : Nat) (votedFor : Option Nat) :
    Storage.saveHardState d term votedFor = .ok (d.write { d.current with term, votedFor }) := rfl

@[simp] theorem append_disk (entries : List Entry) :
    Storage.append d entries =
      .ok (d.write { d.current with log := d.current.log ++ entries }) := rfl

@[simp] theorem truncateFrom_disk (index : Nat) :
    Storage.truncateFrom d index =
      .ok (d.write { d.current with log := d.current.log.take (index - 1) }) := rfl

end

end Landsraad
