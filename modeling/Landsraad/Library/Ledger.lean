import Mathlib.Data.Finset.Card
import Mathlib.Data.Finset.Lattice.Basic
import Mathlib.Logic.Function.Basic
import Mathlib.Logic.Relation
import Mathlib.Tactic.Common
import Landsraad.Library.Agreement

/-!
# Leader-based replication of a log

The abstract system has one replica log per participant and one reign per epoch. A reign
is won with a quorum of votes for a bid, which is the log its leader stood with; its ledger
starts as that bid and only grows. Other participants copy the ledger of their epoch and
acknowledge positions of it. No message appears here: a step reads the recorded votes,
bids, reigns and acknowledgements directly. Quorums come from a family of sets of which any two
have a common member, such as the strict majorities of a finite membership.
-/

namespace ReplicatedLog

section Quorum

/-- A family of finite sets, any two of which meet. -/
structure QuorumSystem (ν : Type*) where
  IsQuorum : Finset ν → Prop
  meet : ∀ {Q Q' : Finset ν}, IsQuorum Q → IsQuorum Q' → ∃ v ∈ Q, v ∈ Q'

variable {ν : Type*} [DecidableEq ν]

/-- Subsets of `members` with more than half of its elements. -/
def majority (members : Finset ν) : QuorumSystem ν where
  IsQuorum Q := Q ⊆ members ∧ members.card / 2 + 1 ≤ Q.card
  meet := by
    intro Q Q' hQ hQ'
    by_contra hdisj
    have hd : Disjoint Q Q' := Finset.disjoint_left.mpr fun v hv hv' => hdisj ⟨v, hv, hv'⟩
    have hle : (Q ∪ Q').card ≤ members.card :=
      Finset.card_le_card (Finset.union_subset hQ.1 hQ'.1)
    rw [Finset.card_union_of_disjoint hd] at hle
    have h1 := hQ.2
    have h2 := hQ'.2
    omega

/-- The count form of the majority test: twice the quorum exceeds the membership. -/
theorem majority_card_lt {members Q : Finset ν} (h : (majority members).IsQuorum Q) :
    members.card < 2 * Q.card := by
  have h2 := h.2
  omega

/-- A property of a whole quorum is one of more than half of the members. -/
theorem majority_lt_filter {members Q : Finset ν} {P : ν → Prop} [DecidablePred P]
    (h : (majority members).IsQuorum Q) (hP : ∀ v ∈ Q, P v) :
    members.card < 2 * (members.filter P).card := by
  have hsub : Q ⊆ members.filter P := fun v hv => Finset.mem_filter.mpr ⟨h.1 hv, hP v hv⟩
  have hle := Finset.card_le_card hsub
  have hlt := majority_card_lt h
  omega

theorem isQuorum_filter {members : Finset ν} {P : ν → Prop} [DecidablePred P]
    (h : members.card < 2 * (members.filter P).card) :
    (majority members).IsQuorum (members.filter P) :=
  ⟨Finset.filter_subset P members, by omega⟩

end Quorum

/-- Entries that carry the epoch they were created in. -/
class Stamped (ε : Type*) where
  stamp : ε → ℕ

export Stamped (stamp)

/-- Rewrites one value of a two-argument table. -/
def setAt {α β γ : Type*} [DecidableEq α] [DecidableEq β] (f : α → β → γ) (a : α) (b : β)
    (x : γ) : α → β → γ :=
  Function.update f a (Function.update (f a) b x)

section SetAt

variable {α β γ : Type*} [DecidableEq α] [DecidableEq β] (f : α → β → γ) {a a' : α} {b b' : β}
  (x : γ)

@[simp] theorem setAt_self : setAt f a b x a b = x := by simp [setAt]

@[simp] theorem setAt_of_ne (h : a' ≠ a) : setAt f a b x a' = f a' := by simp [setAt, h]

@[simp] theorem setAt_of_ne_right (h : b' ≠ b) : setAt f a b x a b' = f a b' := by
  simp [setAt, h]

theorem setAt_apply : setAt f a b x a' b' = if a' = a ∧ b' = b then x else f a' b' := by
  by_cases ha : a' = a
  · subst ha
    by_cases hb : b' = b
    · subst hb; simp
    · simp [hb]
  · simp [ha]

theorem le_setAt [Preorder γ] (h : f a b ≤ x) : f a' b' ≤ setAt f a b x a' b' := by
  rw [setAt_apply]
  split
  · next he =>
    rw [he.1, he.2]
    exact h
  · exact le_rfl

end SetAt

/-- An epoch that was won: its leader, the length of the log it was won with, and every
entry its leader's log has held since. -/
structure Reign (ν ε : Type*) where
  leader : ν
  base : ℕ
  ledger : List ε

/-- The recorded history of the whole system. `vote`, `bid`, `reign` and `ack` are kept for
every epoch, not only for the current one. -/
structure Ledger (ν ε : Type*) where
  epoch : ν → ℕ
  log : ν → List ε
  vote : ν → ℕ → Option ν
  bid : ν → ℕ → Option (List ε)
  reign : ℕ → Option (Reign ν ε)
  ack : ν → ℕ → ℕ

variable {ν ε : Type*} [DecidableEq ν] [Stamped ε]

/-- The stamp of the last entry, zero for an empty log. -/
def lastStamp (l : List ε) : ℕ := (l.getLast?.map stamp).getD 0

/-- `b` is at least as up to date as `l`: a later last stamp, or the same one and no shorter. -/
def UpToDate (b l : List ε) : Prop :=
  lastStamp l < lastStamp b ∨ (lastStamp b = lastStamp l ∧ l.length ≤ b.length)

namespace Ledger

/-- Nothing has happened: empty logs in epoch zero. -/
def initial : Ledger ν ε where
  epoch _ := 0
  log _ := []
  vote _ _ := none
  bid _ _ := none
  reign _ := none
  ack _ _ := 0

section Moves

variable (a : Ledger ν ε) (v : ν)

/-- `v` learns of a later epoch. -/
def advance (t : ℕ) : Ledger ν ε := { a with epoch := Function.update a.epoch v t }

/-- `v` opens epoch `t`, votes for itself and stands with its present log. -/
def stand (t : ℕ) : Ledger ν ε :=
  { a with
    epoch := Function.update a.epoch v t
    vote := setAt a.vote v t (some v)
    bid := setAt a.bid v t (some (a.log v)) }

def castVote (c : ν) : Ledger ν ε := { a with vote := setAt a.vote v (a.epoch v) (some c) }

/-- `v` wins its epoch and opens the reign with the entry `e`. -/
def elect (e : ε) : Ledger ν ε :=
  { a with
    log := Function.update a.log v (a.log v ++ [e])
    reign := Function.update a.reign (a.epoch v) (some ⟨v, (a.log v).length, a.log v ++ [e]⟩)
    ack := setAt a.ack v (a.epoch v) ((a.log v).length + 1) }

/-- The leader `v` of the reign `r` appends `e`. -/
def append (r : Reign ν ε) (e : ε) : Ledger ν ε :=
  { a with
    log := Function.update a.log v (a.log v ++ [e])
    reign := Function.update a.reign (a.epoch v) (some { r with ledger := r.ledger ++ [e] })
    ack := setAt a.ack v (a.epoch v) ((a.log v).length + 1) }

def truncate (k : ℕ) : Ledger ν ε :=
  { a with log := Function.update a.log v ((a.log v).take k) }

def copy (r : Reign ν ε) (m : ℕ) : Ledger ν ε :=
  { a with log := Function.update a.log v (r.ledger.take m) }

def acknowledge (m : ℕ) : Ledger ν ε :=
  { a with ack := setAt a.ack v (a.epoch v) (max (a.ack v (a.epoch v)) m) }

end Moves

/-- One move of participant `v`, with the condition under which it may make it. -/
inductive Step (q : QuorumSystem ν) (v : ν) (a : Ledger ν ε) : Ledger ν ε → Prop
  | advance {t : ℕ} (later : a.epoch v < t) : Step q v a (a.advance v t)
  | stand {t : ℕ} (later : a.epoch v < t) : Step q v a (a.stand v t)
  | castVote {c : ν} {b : List ε} (standing : a.bid c (a.epoch v) = some b)
      (free : a.vote v (a.epoch v) = none ∨ a.vote v (a.epoch v) = some c)
      (upToDate : UpToDate b (a.log v)) : Step q v a (a.castVote v c)
  | elect {e : ε} {Q : Finset ν} (quorum : q.IsQuorum Q)
      (votes : ∀ w ∈ Q, a.vote w (a.epoch v) = some v)
      (standing : a.bid v (a.epoch v) = some (a.log v))
      (vacant : a.reign (a.epoch v) = none) (stamped : stamp e = a.epoch v) :
      Step q v a (a.elect v e)
  | append {r : Reign ν ε} {e : ε} (reigning : a.reign (a.epoch v) = some r)
      (leads : r.leader = v) (current : a.log v = r.ledger) (stamped : stamp e = a.epoch v) :
      Step q v a (a.append v r e)
  | truncate {r : Reign ν ε} {k : ℕ} (reigning : a.reign (a.epoch v) = some r)
      {e e' : ε} (own : (a.log v)[k]? = some e) (theirs : r.ledger[k]? = some e')
      (conflict : stamp e ≠ stamp e') : Step q v a (a.truncate v k)
  | copy {r : Reign ν ε} {m : ℕ} (reigning : a.reign (a.epoch v) = some r)
      (behind : a.log v <+: r.ledger.take m) : Step q v a (a.copy v r m)
  | acknowledge {r : Reign ν ε} {m : ℕ} (reigning : a.reign (a.epoch v) = some r)
      (holds : AgreeUpTo m (a.log v) r.ledger) : Step q v a (a.acknowledge v m)

/-- Any number of moves by any participants. -/
def Steps (q : QuorumSystem ν) : Ledger ν ε → Ledger ν ε → Prop :=
  Relation.ReflTransGen fun a a' => ∃ v, Step q v a a'

/-- Every entry of `l` stands in `l` where the ledger of its own epoch has it, after the same
entries. -/
def Sourced (a : Ledger ν ε) (l : List ε) : Prop :=
  ∀ i e, l[i]? = some e → ∃ r, a.reign (stamp e) = some r ∧ AgreeUpTo (i + 1) l r.ledger

/-- If position `n` was created in the reign of `t`, then `l` holds that ledger up to `n`,
unless the ledger of an epoch in `(t, hi)` already lacks it. -/
def Retains (a : Ledger ν ε) (t n : ℕ) (l : List ε) (hi : ℕ) : Prop :=
  ∀ r, a.reign t = some r → r.base < n → AgreeUpTo n l r.ledger ∨
    ∃ u r', t < u ∧ u < hi ∧ a.reign u = some r' ∧ ¬ AgreeUpTo n r'.ledger r.ledger

/-- The invariant of every reachable state. -/
structure Inv (q : QuorumSystem ν) (a : Ledger ν ε) : Prop where
  log_stamp : ∀ v, ∀ e ∈ a.log v, stamp e ≤ a.epoch v
  log_sourced : ∀ v, a.Sourced (a.log v)
  bid_le : ∀ {c t b}, a.bid c t = some b → t ≤ a.epoch c ∧ a.vote c t = some c
  bid_stamp : ∀ {c t b}, a.bid c t = some b → ∀ e ∈ b, stamp e < t
  bid_sourced : ∀ {c t b}, a.bid c t = some b → a.Sourced b
  vote_le : ∀ {v t c}, a.vote v t = some c → t ≤ a.epoch v
  vote_bid : ∀ {v t c}, a.vote v t = some c → ∃ b, a.bid c t = some b
  reign_bid : ∀ {t r}, a.reign t = some r →
    a.bid r.leader t = some (r.ledger.take r.base) ∧ r.base < r.ledger.length
  reign_stamp : ∀ {t r}, a.reign t = some r → ∀ i e, r.ledger[i]? = some e → r.base ≤ i →
    stamp e = t
  reign_sourced : ∀ {t r}, a.reign t = some r → a.Sourced r.ledger
  ack_reign : ∀ {v t}, 0 < a.ack v t →
    t ≤ a.epoch v ∧ ∃ r, a.reign t = some r ∧ a.ack v t ≤ r.ledger.length
  kept : ∀ v t n, n ≤ a.ack v t → a.Retains t n (a.log v) (a.epoch v + 1)
  pledge : ∀ {v t c b}, a.vote v t = some c → a.bid c t = some b → a.reign t = none →
    ∀ u n, u < t → n ≤ a.ack v u → a.Retains u n b t
  mandate : ∀ {t r}, a.reign t = some r → ∃ Q, q.IsQuorum Q ∧ ∀ v ∈ Q,
    a.vote v t = some r.leader ∧ ∀ u n, u < t → n ≤ a.ack v u → a.Retains u n r.ledger t

end Ledger

end ReplicatedLog
