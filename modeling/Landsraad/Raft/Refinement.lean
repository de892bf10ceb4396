import Landsraad.Library.LedgerSafety
import Landsraad.Raft.NodeSpec
import Landsraad.Raft.System

/-!
# The node refines the ledger

`NodeSim` relates a live node to the ledger, `DiskSim` its storage and `MessageSim` a message
that was sent. Each storage write of a method is one move of the ledger, so a storage left
by a crash between two writes is related to the ledger as well (`Trail`).
-/

namespace Landsraad

open ReplicatedLog ReplicatedLog.Ledger

/-- The ledger of a cluster of nodes. -/
abbrev History := Ledger Nat Entry

/-- The majorities of the nodes `0` to `size - 1`. -/
abbrev quorums (size : Nat) : QuorumSystem Nat := majority (Finset.range size)

structure DiskSim (i : Nat) (a : History) (p : Persistent) : Prop where
  epoch : a.epoch i = p.term
  vote : a.vote i p.term = p.votedFor
  log : a.log i = p.log

structure NodeSim (size i : Nat) (a : History) (n : Node Disk) : Prop where
  id : n.cfg.id = i
  clusterSize : n.cfg.clusterSize = size
  lt_size : i < size
  persisted : n.storage.current = ⟨n.term, n.votedFor, n.log⟩
  disk : DiskSim i a n.storage.current
  votes_length : n.votes.length = size
  candidate : n.role = .candidate → a.bid i n.term = some n.log ∧
    (∀ r, a.reign n.term = some r → r.leader ≠ i) ∧
    ∀ p, n.votes[p]? = some true → a.vote p n.term = some i
  leader : n.role = .leader → ∃ r, a.reign n.term = some r ∧ r.leader = i ∧ r.ledger = n.log ∧
    n.log.length ≤ a.ack i n.term ∧
    ∀ p m, p ≠ i → n.matchIndex[p]? = some m → m ≤ a.ack p n.term
  commit : a.Certified (quorums size) n.term n.log n.commitIndex

def MessageSim (size : Nat) (a : History) (e : Envelope) : Prop :=
  match e.message with
  | .requestVote term lastLogIndex lastLogTerm =>
    ∃ b, a.bid e.sender term = some b ∧ b.length = lastLogIndex ∧ lastStamp b = lastLogTerm
  | .voteResponse term true => a.vote e.sender term = some e.recipient
  | .voteResponse _ false => True
  | .appendEntries term prevIndex prevTerm entries leaderCommit =>
    ∃ r, a.reign term = some r ∧ r.leader = e.sender ∧
      IsSlice r.ledger prevIndex prevTerm entries ∧
      a.Certified (quorums size) term r.ledger leaderCommit
  | .appendResponse term true matchIndex => matchIndex ≤ a.ack e.sender term
  | .appendResponse _ false _ => True

section Stable

variable {size i j : Nat} {a a' : History} {n : Node Disk}

theorem TermAt.of_isPrefix {l l' : List Entry} {index t : Nat} (h : TermAt l index t)
    (hp : l <+: l') : TermAt l' index t := by
  rcases h with h | ⟨hpos, e, he, ht⟩
  · exact .inl h
  · refine .inr ⟨hpos, e, ?_, ht⟩
    have hlt := (List.getElem?_eq_some_iff.mp he).1
    rw [← (AgreeUpTo.of_isPrefix hp le_rfl).getElem?_eq hlt, he]

theorem IsSlice.of_isPrefix {l l' : List Entry} {prevIndex prevTerm : Nat} {entries : List Entry}
    (h : IsSlice l prevIndex prevTerm entries) (hp : l <+: l') :
    IsSlice l' prevIndex prevTerm entries := by
  obtain ⟨hle, ht, hs⟩ := h
  obtain ⟨tail, rfl⟩ := hp
  refine ⟨hle.trans (by simp), ht.of_isPrefix (List.prefix_append _ _), ?_⟩
  rw [List.drop_append_of_le_length hle]
  exact hs.trans (List.prefix_append _ _)

/-- What justified a message when it was sent justifies it for good. -/
theorem MessageSim.mono (hext : Extends a a') {e : Envelope} (h : MessageSim size a e) :
    MessageSim size a' e := by
  obtain ⟨sender, recipient, message⟩ := e
  cases message with
  | requestVote term lastLogIndex lastLogTerm =>
    obtain ⟨b, hb, h⟩ := h
    exact ⟨b, hext.bid hb, h⟩
  | voteResponse term granted =>
    cases granted with
    | true => exact hext.vote h
    | false => trivial
  | appendEntries term prevIndex prevTerm entries leaderCommit =>
    obtain ⟨r, hr, hl, hs, hc⟩ := h
    obtain ⟨r', hr', hl', _, hp⟩ := hext.reign hr
    have hcm := hc.mono hext le_rfl
    exact ⟨r', hr', hl'.trans hl, hs.of_isPrefix hp, hcm.extend hp⟩
  | appendResponse term success matchIndex =>
    cases success with
    | true => exact Nat.le_trans h (hext.ack _ _)
    | false => trivial

theorem DiskSim.frame {p : Persistent} (hs : Step (quorums size) j a a') (hij : i ≠ j)
    (h : DiskSim i a p) : DiskSim i a' p := by
  obtain ⟨he, hl, hv, _, _⟩ := hs.frame hij
  exact ⟨by rw [he, h.epoch], by rw [hv, h.vote], by rw [hl, h.log]⟩

/-- The moves of one node do not disturb the relation of another. -/
theorem NodeSim.frame (hinv : Inv (quorums size) a) (hs : Step (quorums size) j a a')
    (hij : i ≠ j) (h : NodeSim size i a n) : NodeSim size i a' n := by
  have hext := hs.extends hinv
  refine { h with disk := h.disk.frame hs hij, candidate := ?_, leader := ?_, commit := ?_ }
  · intro hrole
    obtain ⟨hbid, hreign, hvotes⟩ := h.candidate hrole
    refine ⟨hext.bid hbid, ?_, fun p hp => hext.vote (hvotes p hp)⟩
    intro r hr
    rcases hs.reign_inv hr with hr | ⟨_, _, _, _, _, hlead, _⟩
    · exact hreign r hr
    · exact fun he => hij (he.symm.trans hlead)
  · intro hrole
    obtain ⟨r, hr, hlead, hledger, hown, hmatch⟩ := h.leader hrole
    obtain ⟨r', hr', hlead', _, _⟩ := hext.reign hr
    rcases hs.reign_inv hr' with hold | ⟨_, _, _, _, _, hj, _⟩
    · rw [hr] at hold
      cases hold
      exact ⟨r, hr', hlead, hledger, hown.trans (hext.ack _ _),
        fun p m hp hm => (hmatch p m hp hm).trans (hext.ack _ _)⟩
    · exact absurd (hlead.symm.trans (hlead'.symm.trans hj)) hij
  · exact h.commit.mono hext le_rfl

end Stable

/-! ## Trails of storage writes -/

/-- Moves of node `i` that lead from `(a, d)` to `(a', d')`, where every storage state on the
way is related to the ledger at that point. -/
inductive Trail (size i : Nat) (a : History) (d : Disk) : History → Disk → Prop
  | refl : Trail size i a d a d
  | silent {a₁ a₂ : History} {d₁ : Disk} : Trail size i a d a₁ d₁ →
      Step (quorums size) i a₁ a₂ → DiskSim i a₂ d₁.current → Trail size i a d a₂ d₁
  | write {a₁ a₂ : History} {d₁ : Disk} {p : Persistent} : Trail size i a d a₁ d₁ →
      Step (quorums size) i a₁ a₂ → DiskSim i a₂ p → Trail size i a d a₂ (d₁.write p)

/-- The storage went from `d` to `d'` by writes whose states are all related to the ledger at
some point between `a` and `a'`. -/
def Written (size i : Nat) (a a' : History) (d d' : Disk) : Prop :=
  ∃ newer, d'.states = newer ++ d.states ∧ ∀ p ∈ newer, ∃ b,
    Steps (quorums size) a b ∧ Steps (quorums size) b a' ∧ DiskSim i b p

namespace Trail

variable {size i j : Nat} {a a' a'' : History} {d d' d'' : Disk} {n : Node Disk}

theorem trans (h : Trail size i a d a' d') (h' : Trail size i a' d' a'' d'') :
    Trail size i a d a'' d'' := by
  induction h' with
  | refl => exact h
  | silent _ hs hd ih => exact ih.silent hs hd
  | write _ hs hd ih => exact ih.write hs hd

theorem steps (h : Trail size i a d a' d') : Steps (quorums size) a a' := by
  induction h with
  | refl => exact .refl
  | silent _ hs _ ih => exact ih.tail ⟨i, hs⟩
  | write _ hs _ ih => exact ih.tail ⟨i, hs⟩

theorem diskSim (h : Trail size i a d a' d') (hd : DiskSim i a d.current) :
    DiskSim i a' d'.current := by
  cases h with
  | refl => exact hd
  | silent _ _ hd => exact hd
  | write _ _ hd => exact hd

theorem nodeSim_frame (h : Trail size i a d a' d') (hinv : Inv (quorums size) a) (hij : j ≠ i)
    (hn : NodeSim size j a n) : NodeSim size j a' n := by
  induction h with
  | refl => exact hn
  | silent hprev hs _ ih => exact ih.frame (hinv.steps hprev.steps) hs hij
  | write hprev hs _ ih => exact ih.frame (hinv.steps hprev.steps) hs hij

theorem diskSim_frame (h : Trail size i a d a' d') (hij : j ≠ i) {p : Persistent}
    (hp : DiskSim j a p) : DiskSim j a' p := by
  induction h with
  | refl => exact hp
  | silent _ hs _ ih => exact ih.frame hs hij
  | write _ hs _ ih => exact ih.frame hs hij

theorem written (h : Trail size i a d a' d') : Written size i a a' d d' := by
  induction h with
  | refl => exact ⟨[], rfl, by simp⟩
  | silent _ hs _ ih =>
    obtain ⟨newer, he, hall⟩ := ih
    refine ⟨newer, he, fun p hp => ?_⟩
    obtain ⟨b, h₁, h₂, hd⟩ := hall p hp
    exact ⟨b, h₁, h₂.tail ⟨i, hs⟩, hd⟩
  | @write a₁ a₂ d₁ p hprev hs hd ih =>
    obtain ⟨newer, he, hall⟩ := ih
    refine ⟨p :: newer, ?_, ?_⟩
    · rw [List.cons_append, ← he]
      rfl
    · intro x hx
      rcases List.mem_cons.mp hx with rfl | hx
      · exact ⟨a₂, hprev.steps.tail ⟨i, hs⟩, .refl, hd⟩
      · obtain ⟨b, h₁, h₂, hb⟩ := hall x hx
        exact ⟨b, h₁, h₂.tail ⟨i, hs⟩, hb⟩

theorem earlier_length_le (h : Trail size i a d a' d') :
    d.earlier.length ≤ d'.earlier.length := by
  induction h with
  | refl => exact le_rfl
  | silent _ _ _ ih => exact ih
  | write _ _ _ ih => exact ih.trans (by simp [Journal.write])

/-- A crash that loses the last writes leaves a storage further up the trail. -/
theorem rewind (h : Trail size i a d a' d') {lost : Nat}
    (hlost : lost ≤ System.writesBetween d d') :
    ∃ b, Trail size i a d b (d'.rewind lost) := by
  induction h generalizing lost with
  | refl =>
    obtain rfl : lost = 0 := by simpa [System.writesBetween] using hlost
    exact ⟨a, .refl⟩
  | silent hprev hs hd ih =>
    cases lost with
    | zero => exact ⟨_, hprev.silent hs hd⟩
    | succ lost => exact ih hlost
  | @write a₁ a₂ d₁ p hprev hs hd ih =>
    cases lost with
    | zero => exact ⟨a₂, hprev.write hs hd⟩
    | succ lost =>
      apply @ih lost
      have hle := hprev.earlier_length_le
      simp only [System.writesBetween, Journal.write, List.length_cons] at hlost ⊢
      omega

end Trail

namespace Written

variable {size i : Nat} {a a' a'' : History} {d d' d'' : Disk}

theorem same (d : Disk) : Written size i a a' d d := ⟨[], rfl, by simp⟩

theorem trans (h : Written size i a a' d d') (h' : Written size i a' a'' d' d'')
    (hs : Steps (quorums size) a a') (hs' : Steps (quorums size) a' a'') :
    Written size i a a'' d d'' := by
  obtain ⟨newer, he, hall⟩ := h
  obtain ⟨newer', he', hall'⟩ := h'
  refine ⟨newer' ++ newer, by rw [he', he, List.append_assoc], ?_⟩
  intro p hp
  rcases List.mem_append.mp hp with hp | hp
  · obtain ⟨b, h₁, h₂, hd⟩ := hall' p hp
    exact ⟨b, hs.trans h₁, h₂, hd⟩
  · obtain ⟨b, h₁, h₂, hd⟩ := hall p hp
    exact ⟨b, h₁, h₂.trans hs', hd⟩

end Written

end Landsraad
