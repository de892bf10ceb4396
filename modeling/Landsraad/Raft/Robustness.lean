import Landsraad.Raft.Bookkeeping

/-!
# When a call returns

A node may be called in any way and sent any message. `Admissible` says what its surroundings
grant it: words that are not exhausted, lists that fit in memory, and no second leader of its
term. Under that, `Safe` is the exact condition for a call to return.
-/

namespace Landsraad

open Checked

/-- Everything a node can be asked to do. -/
inductive Request
  | call (c : Call)
  | takeCommitted
deriving DecidableEq, Repr

/-- No list in memory is longer. -/
def maxLength : Nat := wordSize / 2 - 1

namespace Node

variable {n n' : Node Disk} {now : Nat} {out : List Outgoing}

def request (n : Node Disk) : Request → Checked (Node Disk)
  | .call c => do
    let (n, _, _) ← n.call c
    pure n
  | .takeCommitted => do
    let (n, _) ← n.takeCommitted
    pure n

def requestStep (n : Node Disk) (r : Request) : Option (Node Disk) := (n.request r).toOption

/-- The clock is far enough below the largest word for every timer of the node. -/
def ClockFits (n : Node Disk) (now : Nat) : Prop :=
  now + n.cfg.electionTimeout.2 < wordSize ∧ now + n.cfg.heartbeatInterval < wordSize

/-- The entries of a message fit in memory, and a leader hears of no other leader of its term. -/
def MessageFits (n : Node Disk) : Message → Prop
  | .appendEntries term _ _ entries _ =>
    entries.length ≤ maxLength ∧ (term = n.term → n.role ≠ .leader)
  | _ => True

/-- The term can still be raised, the log and the message fit in memory, and the clock is small. -/
def Admissible (n : Node Disk) (r : Request) : Prop :=
  n.term + 1 < wordSize ∧ n.log.length ≤ maxLength ∧
    match r with
    | .call (.tick now) => n.ClockFits now
    | .call (.handle now _ msg) => n.ClockFits now ∧ n.MessageFits msg
    | .call (.propose _ _) => True
    | .takeCommitted => True

instance instDecidableClockFits (n : Node Disk) (now : Nat) : Decidable (n.ClockFits now) :=
  inferInstanceAs (Decidable (_ ∧ _))

instance instDecidableMessageFits (n : Node Disk) : ∀ msg, Decidable (n.MessageFits msg)
  | .requestVote .. => .isTrue trivial
  | .voteResponse .. => .isTrue trivial
  | .appendEntries .. => inferInstanceAs (Decidable (_ ∧ (_ → _)))
  | .appendResponse .. => .isTrue trivial

instance instDecidableAdmissible (n : Node Disk) : ∀ r, Decidable (n.Admissible r)
  | .call (.tick now) => inferInstanceAs (Decidable (_ ∧ _ ∧ n.ClockFits now))
  | .call (.handle now _ msg) =>
    inferInstanceAs (Decidable (_ ∧ _ ∧ n.ClockFits now ∧ n.MessageFits msg))
  | .call (.propose _ _) => inferInstanceAs (Decidable (_ ∧ _ ∧ True))
  | .takeCommitted => inferInstanceAs (Decidable (_ ∧ _ ∧ True))

/-- `prev` is the index before the next one to send to some peer. -/
def Pending (n : Node Disk) (prev : Nat) : Prop :=
  ∃ p ∈ n.peers, n.nextIndex[p]? = some (prev + 1)

/-- On the message the node, as a leader, cuts a batch that follows index `prev` of its log:
it wins its term with an empty match for everybody, or a reply moves the next index. -/
def ReplyCuts (n : Node Disk) (sender prev : Nat) : Message → Prop
  | .voteResponse term granted =>
    n.role = .candidate ∧ term = n.term ∧ granted = true ∧
      n.quorum ≤ (n.votes.set sender true).count true ∧ prev = n.lastIndex
  | .appendResponse term success matchIndex =>
    n.role = .leader ∧ term = n.term ∧ ∃ known next,
      n.matchIndex[sender]? = some known ∧ n.nextIndex[sender]? = some next ∧
      if success then prev = max known (min matchIndex n.lastIndex) ∧ prev < n.lastIndex
      else prev = max known (min (next - 1) matchIndex)
  | _ => False

/-- The call makes the node cut a batch that follows index `prev` of its log. -/
def Cuts (n : Node Disk) (prev : Nat) : Call → Prop
  | .tick now => n.role = .leader ∧ n.heartbeatDeadline ≤ now ∧ n.Pending prev
  | .propose _ _ => n.role = .leader ∧ n.Pending prev
  | .handle _ sender msg => sender ∈ n.peers ∧ n.ReplyCuts sender prev msg

/-- A failed reply to the leader of its term leaves room for one more index. -/
def HintFits (n : Node Disk) (sender : Nat) : Message → Prop
  | .appendResponse term success hint =>
    sender ∈ n.peers → n.role = .leader → term = n.term → success = false → hint + 1 < wordSize
  | _ => True

/-- Delivery finds the log long enough, the end of a full batch is a word for every batch that
is cut, and so is the index after the hint of a failed reply. -/
def Safe (n : Node Disk) : Request → Prop
  | .takeCommitted => n.appliedIndex < n.commitIndex → n.commitIndex ≤ n.lastIndex
  | .call c => (∀ prev, n.Cuts prev c → prev + n.cfg.maxBatch < wordSize) ∧
      match c with
      | .handle _ sender msg => n.HintFits sender msg
      | _ => True

/-- A started node: its tables fit the cluster, and it has passed the checks of the start. -/
structure Formed (n : Node Disk) : Prop where
  ranged : n.Ranged
  id_lt : n.cfg.id < n.cfg.clusterSize
  timeout : 0 < n.cfg.electionTimeout.1 ∧ n.cfg.electionTimeout.1 ≤ n.cfg.electionTimeout.2
  votes_length : n.votes.length = n.cfg.clusterSize

/-- What calls keep of a started node, whatever they bring. -/
structure Sound (n : Node Disk) : Prop extends Formed n where
  commit_lt : n.commitIndex + 1 < wordSize
  applied_lt : n.appliedIndex + 1 < wordSize

/-- The end of the entries that a message brings is a word where they may be taken, and a leader
hears of no other leader of its term. -/
def Fitting (n : Node Disk) : Message → Prop
  | .appendEntries term prevIndex _ entries _ =>
    (prevIndex ≤ n.lastIndex → prevIndex + entries.length + 1 < wordSize) ∧
      (term = n.term → n.role ≠ .leader)
  | _ => True

theorem add_lt_wordSize {a b : Nat} (ha : a ≤ maxLength) (hb : b ≤ maxLength) :
    a + b + 1 < wordSize := by
  have hsize : wordSize = 18446744073709551616 := rfl
  unfold maxLength at ha hb
  omega

theorem lt_wordSize {a : Nat} (ha : a ≤ maxLength) : a + 1 < wordSize :=
  add_lt_wordSize (b := 0) ha (Nat.zero_le _)

theorem MessageFits.fitting {msg : Message} (h : n.MessageFits msg)
    (hlog : n.log.length ≤ maxLength) : n.Fitting msg := by
  cases msg with
  | appendEntries term prevIndex prevTerm entries leaderCommit =>
    exact ⟨fun hprev => add_lt_wordSize (hprev.trans hlog) h.1, h.2⟩
  | requestVote term lastLogIndex lastLogTerm => trivial
  | voteResponse term granted => trivial
  | appendResponse term success matchIndex => trivial

/-! ## The parts of a call -/

theorem resetElectionTimer_returns
    (ht : 0 < n.cfg.electionTimeout.1 ∧ n.cfg.electionTimeout.1 ≤ n.cfg.electionTimeout.2)
    (hnow : now + n.cfg.electionTimeout.2 < wordSize) : (n.resetElectionTimer now).Returns := by
  unfold resetElectionTimer
  generalize n.cfg.electionTimeout = timeout at ht hnow
  obtain ⟨lo, hi⟩ := timeout
  obtain ⟨hpos, hle⟩ := ht
  dsimp only at hpos hle hnow ⊢
  refine (Returns.sub hle).bind fun width hwidth => ?_
  obtain ⟨_, rfl⟩ := sub_eq_ok.mp hwidth
  refine (Returns.add (by omega)).bind fun span hspan => ?_
  obtain ⟨_, rfl⟩ := add_eq_ok.mp hspan
  refine (Returns.add (by omega)).bind fun lowest hlowest => ?_
  obtain ⟨_, rfl⟩ := add_eq_ok.mp hlowest
  have hmod : n.nextRand.1.toNat % (hi - lo + 1) < hi - lo + 1 := Nat.mod_lt _ (Nat.succ_pos _)
  exact (Returns.add (by omega)).bind fun deadline _ => .pure _

theorem termAt_returns {index : Nat} (h : index ≤ n.log.length) : (n.termAt index).Returns := by
  unfold termAt
  split
  · exact .ok 0
  · exact Returns.bind_pure_iff.mpr (.get (by omega))

theorem appendFor_returns {p prev : Nat} (hnext : n.nextIndex[p]? = some (prev + 1))
    (hle : prev ≤ n.log.length) :
    (n.appendFor p).Returns ↔ prev + n.cfg.maxBatch < wordSize := by
  unfold appendFor
  rw [get_eq_ok.mpr hnext, ok_bind, sub_eq_ok.mpr ⟨Nat.le_add_left 1 prev, rfl⟩, ok_bind,
    Nat.add_sub_cancel]
  constructor
  · intro h
    obtain ⟨_, hstop, _⟩ := Returns.bind_iff.mp h
    exact (add_eq_ok.mp hstop).1
  · intro h
    refine (Returns.add h).bind fun stop hstop => (termAt_returns hle).bind fun t _ => ?_
    obtain ⟨_, rfl⟩ := add_eq_ok.mp hstop
    exact Returns.bind_pure_iff.mpr ⟨_, slice_eq_ok.mpr ⟨by omega, by omega, rfl⟩⟩

/-- A leader's broadcast returns if every batch end is a word. -/
theorem broadcastAppend_returns (hn : n.Ranged) (hrole : n.role = .leader) :
    n.broadcastAppend.Returns ↔ ∀ prev, n.Pending prev → prev + n.cfg.maxBatch < wordSize := by
  have hrange (p : Nat) (hp : p ∈ n.peers) :
      ∃ prev, n.nextIndex[p]? = some (prev + 1) ∧ prev ≤ n.log.length := by
    have hlt : p < n.matchIndex.length := by
      rw [hn.match_length]
      exact (mem_peers.mp hp).1
    obtain ⟨x, hx, hpos, hle⟩ := hn.known hrole (List.getElem?_eq_getElem hlt)
    obtain ⟨prev, rfl⟩ := Nat.exists_eq_add_of_lt hpos
    exact ⟨_, hx, Nat.le_of_succ_le_succ hle⟩
  rw [broadcastAppend, Returns.mapM_iff]
  constructor
  · rintro h prev ⟨p, hp, hnext⟩
    obtain ⟨prev', hnext', hle⟩ := hrange p hp
    rw [hnext] at hnext'
    cases hnext'
    exact (appendFor_returns hnext hle).mp (h p hp)
  · intro h p hp
    obtain ⟨prev, hnext, hle⟩ := hrange p hp
    exact (appendFor_returns hnext hle).mpr (h prev ⟨p, hp, hnext⟩)

theorem replicasAmong_returns {k : Nat} {ps : List Nat} (h : ∀ p ∈ ps, p < n.matchIndex.length) :
    (n.replicasAmong k ps).Returns := by
  induction ps with
  | nil => exact .ok 0
  | cons p ps ih =>
    refine (Returns.get (h p (by simp))).bind fun m _ => Returns.bind_pure_iff.mpr (ih ?_)
    exact fun q hq => h q (List.mem_cons_of_mem p hq)

theorem commitScan_returns (hmatch : n.matchIndex.length = n.cfg.clusterSize) {k : Nat}
    (hk : k ≤ n.log.length) : (n.commitScan k).Returns := by
  induction k with
  | zero => exact .ok n
  | succ k ih =>
    rw [commitScan]
    split
    · exact .ok n
    refine (termAt_returns hk).bind fun t _ => ?_
    split
    · exact .pure n
    have hpeers : ∀ p ∈ n.peers, p < n.matchIndex.length := by
      intro p hp
      rw [hmatch]
      exact (mem_peers.mp hp).1
    refine (replicasAmong_returns hpeers).bind fun m _ => ?_
    dsimp only
    split
    · exact .pure _
    · exact ih (by omega)

theorem advanceCommit_returns (hmatch : n.matchIndex.length = n.cfg.clusterSize)
    (hcommit : n.commitIndex + 1 < wordSize) : n.advanceCommit.Returns :=
  (Returns.add hcommit).bind fun _ _ => commitScan_returns hmatch le_rfl

/-! ## Elections -/

/-- Winning cuts a batch for every peer, each at the end of the old log. -/
theorem becomeLeader_returns (hlog : n.log.length + 1 < wordSize)
    (hcommit : n.commitIndex + 1 < wordSize) (hnow : now + n.cfg.heartbeatInterval < wordSize) :
    (n.becomeLeader now).Returns ↔ (n.peers ≠ [] → n.lastIndex + n.cfg.maxBatch < wordSize) := by
  unfold becomeLeader
  refine Returns.bind_iff_of (.add hlog) fun next hnext => ?_
  obtain ⟨_, rfl⟩ := add_eq_ok.mp hnext
  dsimp only
  rw [append_disk, ok_bind]
  have hr := n.inaugurated_ranged
  refine Returns.bind_iff_of (advanceCommit_returns hr.match_length hcommit) fun n₁ hn₁ => ?_
  obtain ⟨c, rfl, _⟩ := advanceCommit_ok hn₁
  refine Returns.bind_iff_of (.add hnow) fun deadline _ => ?_
  refine Returns.bind_pure_iff.trans ((broadcastAppend_returns ?_ rfl).trans ?_)
  · exact hr.of_isPrefix rfl rfl rfl rfl List.prefix_rfl
  constructor
  · intro h hne
    obtain ⟨p, hp⟩ := List.exists_mem_of_ne_nil _ hne
    refine h n.lastIndex ⟨p, hp, ?_⟩
    exact List.getElem?_replicate_of_lt (mem_peers.mp hp).1
  · rintro h prev ⟨p, hp, hget⟩
    obtain ⟨_, heq⟩ := List.getElem?_eq_some_iff.mp hget
    rw [List.getElem_replicate] at heq
    rw [← Nat.succ_injective heq]
    exact h (List.ne_nil_of_mem hp)

theorem count_own_vote {size id : Nat} (h : id < size) :
    ((List.replicate size false).set id true).count true = 1 := by
  rw [List.count_set (by simpa using h)]
  simp [List.count_replicate]

/-- One vote is a majority only of a cluster without peers. -/
theorem peers_of_quorum_one (hid : n.cfg.id < n.cfg.clusterSize) (h : n.quorum ≤ 1) :
    n.peers = [] := by
  unfold quorum at h
  have hsize : n.cfg.clusterSize = 1 := by omega
  have hzero : n.cfg.id = 0 := by omega
  simp [peers, hsize, hzero]

theorem startElection_returns (hn : n.Formed) (hcommit : n.commitIndex + 1 < wordSize)
    (hterm : n.term + 1 < wordSize) (hlog : n.log.length + 1 < wordSize) (hnow : n.ClockFits now) :
    (n.startElection now).Returns := by
  unfold startElection
  refine (Returns.add hterm).bind fun term _ => ?_
  simp only [persistHardState, saveHardState_disk, ok_bind, pure_bind]
  refine (Returns.set (by simpa using hn.id_lt)).bind fun votes hvotes => ?_
  obtain ⟨_, rfl⟩ := set_eq_ok.mp hvotes
  refine Returns.bind (resetElectionTimer_returns hn.timeout hnow.1) fun c hc => ?_
  obtain ⟨deadline, rng, rfl⟩ := resetElectionTimer_ok hc
  split
  · next hq =>
    dsimp only at hq
    rw [count_own_vote hn.id_lt] at hq
    refine (becomeLeader_returns ?_ ?_ ?_).mpr fun hne => absurd ?_ hne
    · exact hlog
    · exact hcommit
    · exact hnow.2
    · exact peers_of_quorum_one (n := n) hn.id_lt hq
  · exact (termAt_returns le_rfl).bind fun _ _ => .pure _

theorem tick_leader_returns (hn : n.Formed) (hrole : n.role = .leader) (hnow : n.ClockFits now) :
    (n.tick now).Returns ↔ ∀ prev, n.Cuts prev (.tick now) → prev + n.cfg.maxBatch < wordSize := by
  simp only [tick, hrole]
  split
  · next hdue =>
    refine Returns.bind_iff_of (.add hnow.2) fun deadline _ => ?_
    refine Returns.bind_pure_iff.trans ((broadcastAppend_returns ?_ hrole).trans ?_)
    · exact hn.ranged.of_isPrefix rfl rfl rfl rfl List.prefix_rfl
    exact ⟨fun h prev hc => h prev hc.2.2, fun h prev hp => h prev ⟨hrole, hdue, hp⟩⟩
  · next hdue => exact iff_of_true (.pure _) fun prev hc => absurd hc.2.1 hdue

theorem tick_returns (hn : n.Formed) (hcommit : n.commitIndex + 1 < wordSize)
    (hterm : n.term + 1 < wordSize) (hlog : n.log.length + 1 < wordSize) (hnow : n.ClockFits now) :
    (n.tick now).Returns ↔ ∀ prev, n.Cuts prev (.tick now) → prev + n.cfg.maxBatch < wordSize := by
  by_cases hrole : n.role = .leader
  · exact tick_leader_returns hn hrole hnow
  have hcuts (prev : Nat) (hc : n.Cuts prev (.tick now)) : prev + n.cfg.maxBatch < wordSize :=
    absurd hc.1 hrole
  refine iff_of_true ?_ hcuts
  unfold tick
  split
  · next hlead => exact absurd hlead hrole
  · split
    · exact startElection_returns hn hcommit hterm hlog hnow
    · exact .pure _

theorem propose_returns {command : List UInt8} (hn : n.Formed)
    (hcommit : n.commitIndex + 1 < wordSize) :
    (n.propose now command).Returns ↔
      ∀ prev, n.Cuts prev (.propose now command) → prev + n.cfg.maxBatch < wordSize := by
  unfold propose
  split
  · next hrole => exact iff_of_true (.pure _) fun prev hc => absurd hc.1 hrole
  · next hrole =>
    have hl := not_ne_iff.mp hrole
    dsimp only
    rw [append_disk, ok_bind]
    refine Returns.bind_iff_of (advanceCommit_returns hn.ranged.match_length hcommit)
      fun n₁ hn₁ => ?_
    obtain ⟨c, rfl, _⟩ := advanceCommit_ok hn₁
    refine Returns.bind_pure_iff.trans ((broadcastAppend_returns ?_ ?_).trans ?_)
    · exact hn.ranged.of_isPrefix rfl rfl rfl rfl (List.prefix_append _ _)
    · exact hl
    exact ⟨fun h prev hc => h prev hc.2, fun h prev hp => h prev ⟨hl, hp⟩⟩

/-! ## Messages -/

theorem onRequestVote_returns {sender term lastLogIndex lastLogTerm : Nat} (hn : n.Formed)
    (hnow : n.ClockFits now) :
    (n.onRequestVote now sender term lastLogIndex lastLogTerm).Returns := by
  unfold onRequestVote
  dsimp only
  split
  · refine (termAt_returns le_rfl).bind fun t _ => ?_
    split
    · simp only [persistHardState, saveHardState_disk, ok_bind, pure_bind]
      exact Returns.bind (resetElectionTimer_returns hn.timeout hnow.1) fun _ _ => .pure _
    · exact .pure _
  · exact .pure _

theorem onVoteResponse_returns {sender term : Nat} {granted : Bool} (hn : n.Formed)
    (hcommit : n.commitIndex + 1 < wordSize) (hp : sender ∈ n.peers)
    (hlog : n.log.length + 1 < wordSize) (hnow : n.ClockFits now) :
    (n.onVoteResponse now sender term granted).Returns ↔
      ∀ prev, n.ReplyCuts sender prev (.voteResponse term granted) →
        prev + n.cfg.maxBatch < wordSize := by
  unfold onVoteResponse
  split
  · next hcond =>
    refine iff_of_true (.pure _) fun prev ⟨hrole, hterm, hgranted, _⟩ => ?_
    simp [hrole, hterm, hgranted] at hcond
  · next hcond =>
    simp only [not_or, not_not, Bool.not_eq_false] at hcond
    obtain ⟨hrole, hterm, hgranted⟩ := hcond
    have hlt : sender < n.votes.length := by
      rw [hn.votes_length]
      exact (mem_peers.mp hp).1
    refine Returns.bind_iff_of (.set hlt) fun votes hvotes => ?_
    obtain ⟨_, rfl⟩ := set_eq_ok.mp hvotes
    dsimp only
    split
    · next hq =>
      refine (becomeLeader_returns ?_ ?_ ?_).trans ?_
      · exact hlog
      · exact hcommit
      · exact hnow.2
      constructor
      · rintro h prev ⟨_, _, _, _, rfl⟩
        exact h (List.ne_nil_of_mem hp)
      · exact fun h _ => h _ ⟨hrole, hterm, hgranted, hq, rfl⟩
    · next hq => exact iff_of_true (.pure _) fun prev hc => absurd hc.2.2.2.1 hq

theorem mergeEntries_returns {prevIndex k : Nat} {entries : List Entry}
    (hroom : prevIndex + k + entries.length < wordSize) :
    (n.mergeEntries prevIndex k entries).Returns := by
  induction entries generalizing k with
  | nil => exact .pure n
  | cons e rest ih =>
    rw [List.length_cons] at hroom
    rw [mergeEntries]
    refine (Returns.add (by omega)).bind fun first hfirst => ?_
    obtain ⟨_, rfl⟩ := add_eq_ok.mp hfirst
    refine (Returns.add (by omega)).bind fun idx hidx => ?_
    split
    · next hle =>
      refine (termAt_returns hle).bind fun t _ => ?_
      split
      · exact ih (by omega)
      · exact .pure _
    · exact .pure _

/-- An AppendEntries is safe to handle: the previous index is compared with the log first. -/
theorem onAppendEntries_returns {sender term prevIndex prevTerm leaderCommit : Nat}
    {entries : List Entry} (hn : n.Formed)
    (hroom : prevIndex ≤ n.lastIndex → prevIndex + entries.length + 1 < wordSize)
    (hnow : n.ClockFits now) (hrole : n.term ≤ term → n.role ≠ .leader) :
    (n.onAppendEntries now sender term prevIndex prevTerm entries leaderCommit).Returns := by
  unfold onAppendEntries
  dsimp only
  split
  · exact .pure _
  next hterm =>
  rw [assert_of (hrole (Nat.le_of_not_lt hterm)), ok_bind]
  refine Returns.bind (resetElectionTimer_returns hn.timeout hnow.1) fun f hf => ?_
  obtain ⟨deadline, rng, rfl⟩ := resetElectionTimer_ok hf
  split
  · exact .pure _
  next hprev =>
  have hle : prevIndex ≤ n.log.length := Nat.le_of_not_lt hprev
  have hroom := hroom hle
  refine (termAt_returns hle).bind fun t _ => ?_
  split
  · exact .pure _
  refine (mergeEntries_returns (by omega)).bind fun m _ => ?_
  exact (Returns.add (by omega)).bind fun _ _ => .pure _

/-- A successful reply is clamped to the log; it is answered while the peer lacks entries. -/
theorem onAppendResponse_true_returns {sender term matchIndex : Nat} (hn : n.Formed)
    (hcommit : n.commitIndex + 1 < wordSize) (hp : sender ∈ n.peers)
    (hlog : n.log.length + 1 < wordSize) :
    (n.onAppendResponse sender term true matchIndex).Returns ↔
      ∀ prev, n.ReplyCuts sender prev (.appendResponse term true matchIndex) →
        prev + n.cfg.maxBatch < wordSize := by
  unfold onAppendResponse
  split
  · next hcond =>
    refine iff_of_true (.pure _) fun prev ⟨hrole, hterm, _⟩ => ?_
    simp [hrole, hterm] at hcond
  next hcond =>
  simp only [not_or, not_not] at hcond
  obtain ⟨hrole, hterm⟩ := hcond
  obtain ⟨known, next, hknown, hnext, hpos, hle⟩ := hn.ranged.peer hrole hp
  rw [lastIndex] at hle
  have hlt := (List.getElem?_eq_some_iff.mp hnext).1
  have hin : max known (min matchIndex n.lastIndex) ≤ n.log.length := by
    have : min matchIndex n.lastIndex ≤ n.log.length := min_le_right _ _
    omega
  rw [get_eq_ok.mpr hknown, ok_bind, if_pos rfl]
  refine Returns.bind_iff_of (.add (by omega)) fun stop hstop => ?_
  obtain ⟨_, rfl⟩ := add_eq_ok.mp hstop
  refine Returns.bind_iff_of (.set hlt) fun nextIndex hset => ?_
  obtain ⟨_, rfl⟩ := set_eq_ok.mp hset
  refine Returns.bind_iff_of (advanceCommit_returns ?_ hcommit) fun n₁ hn₁ => ?_
  · simpa using hn.ranged.match_length
  obtain ⟨c, rfl, _⟩ := advanceCommit_ok hn₁
  let f : Node Disk :=
    { n.acknowledged sender (max known (min matchIndex n.lastIndex)) with commitIndex := c }
  have hfor : (f.appendFor sender).Returns ↔ _ :=
    appendFor_returns (List.getElem?_set_self hlt) hin
  split
  · next hmore =>
    refine Returns.bind_pure_iff.trans (hfor.trans ⟨?_, ?_⟩)
    · rintro h prev ⟨_, _, known', _, hknown', _, rfl, _⟩
      rw [hknown] at hknown'
      cases hknown'
      exact h
    · exact fun h => h _ ⟨hrole, hterm, known, next, hknown, hnext, rfl, hmore⟩
  · next hall =>
    refine iff_of_true (.pure _) ?_
    rintro prev ⟨_, _, known', _, hknown', _, rfl, hmore⟩
    rw [hknown] at hknown'
    cases hknown'
    exact absurd hmore hall

/-- A failed reply is always answered; its hint must leave room for one more index. -/
theorem onAppendResponse_false_returns {sender term matchIndex : Nat} (hn : n.Formed)
    (hp : sender ∈ n.peers) (hlog : n.log.length + 1 < wordSize) :
    (n.onAppendResponse sender term false matchIndex).Returns ↔
      (∀ prev, n.ReplyCuts sender prev (.appendResponse term false matchIndex) →
        prev + n.cfg.maxBatch < wordSize) ∧
      n.HintFits sender (.appendResponse term false matchIndex) := by
  unfold onAppendResponse
  split
  · next hcond =>
    refine iff_of_true (.pure _) ⟨fun prev ⟨hrole, hterm, _⟩ => ?_, fun _ hrole hterm _ => ?_⟩
    · simp [hrole, hterm] at hcond
    · simp [hrole, hterm] at hcond
  next hcond =>
  simp only [not_or, not_not] at hcond
  obtain ⟨hrole, hterm⟩ := hcond
  obtain ⟨known, next, hknown, hnext, hpos, hle⟩ := hn.ranged.peer hrole hp
  rw [lastIndex] at hle
  have hlt := (List.getElem?_eq_some_iff.mp hnext).1
  have hset : n.nextIndex.set sender (max (known + 1) (min next (matchIndex + 1))) =
      n.nextIndex.set sender (max known (min (next - 1) matchIndex) + 1) := by
    congr 1
    omega
  let f : Node Disk := { n with
    nextIndex := n.nextIndex.set sender (max known (min (next - 1) matchIndex) + 1) }
  have hfor : (f.appendFor sender).Returns ↔ _ :=
    appendFor_returns (List.getElem?_set_self hlt) (show _ ≤ n.log.length by omega)
  rw [get_eq_ok.mpr hknown, ok_bind, if_neg Bool.false_ne_true]
  refine Returns.bind_iff_of (.add (by omega)) fun lowest hlowest => ?_
  obtain ⟨_, rfl⟩ := add_eq_ok.mp hlowest
  constructor
  · intro h
    obtain ⟨hint, hadd, h⟩ := Returns.bind_iff.mp h
    obtain ⟨hfits, rfl⟩ := add_eq_ok.mp hadd
    rw [get_eq_ok.mpr hnext, ok_bind, set_eq_ok.mpr ⟨hlt, hset.symm⟩, ok_bind] at h
    refine ⟨?_, fun _ _ _ _ => hfits⟩
    rintro prev ⟨_, _, known', next', hknown', hnext', rfl⟩
    rw [hknown] at hknown'
    rw [hnext] at hnext'
    cases hknown'
    cases hnext'
    exact hfor.mp (Returns.bind_pure_iff.mp h)
  · rintro ⟨hcuts, hfits⟩
    rw [add_eq_ok.mpr ⟨hfits hp hrole hterm rfl, rfl⟩, ok_bind, get_eq_ok.mpr hnext, ok_bind,
      set_eq_ok.mpr ⟨hlt, hset.symm⟩, ok_bind]
    have hbatch := hcuts _ ⟨hrole, hterm, known, next, hknown, hnext, rfl⟩
    exact Returns.bind_pure_iff.mpr (hfor.mpr hbatch)

/-! ## Calls -/

/-- What a follower receives never makes it cut a batch. -/
theorem not_replyCuts {sender prev : Nat} {msg : Message} (hrole : n.role = .follower) :
    ¬ n.ReplyCuts sender prev msg := by
  cases msg <;> simp [ReplyCuts, hrole]

theorem ReplyCuts.term_eq {sender prev : Nat} {msg : Message} (h : n.ReplyCuts sender prev msg) :
    msg.term = n.term := by
  cases msg with
  | voteResponse term granted => exact h.2.1
  | appendResponse term success matchIndex => exact h.2.1
  | requestVote term lastLogIndex lastLogTerm => cases h
  | appendEntries term prevIndex prevTerm entries leaderCommit => cases h

/-- Only a failed reply to the leader of its own term has a hint that matters. -/
theorem hintFits_of {sender : Nat} {msg : Message}
    (h : sender ∈ n.peers → n.role = .leader → msg.term ≠ n.term) : n.HintFits sender msg := by
  cases msg with
  | appendResponse term success matchIndex => exact fun hp hrole hterm => absurd hterm (h hp hrole)
  | requestVote term lastLogIndex lastLogTerm => trivial
  | voteResponse term granted => trivial
  | appendEntries term prevIndex prevTerm entries leaderCommit => trivial

/-- The method that a message of a peer reaches returns exactly if the node has room for what
the message makes it compute. -/
theorem receive_returns {sender : Nat} {msg : Message} (hn : n.Formed)
    (hcommit : n.commitIndex + 1 < wordSize) (hp : sender ∈ n.peers)
    (hlog : n.log.length + 1 < wordSize) (hnow : n.ClockFits now) (hmsg : n.Fitting msg)
    (hterm : msg.term ≤ n.term) :
    (n.receive now sender msg).Returns ↔
      (∀ prev, n.ReplyCuts sender prev msg → prev + n.cfg.maxBatch < wordSize) ∧
        n.HintFits sender msg := by
  cases msg with
  | requestVote term lastLogIndex lastLogTerm =>
    exact iff_of_true (onRequestVote_returns hn hnow) ⟨fun _ => False.elim, trivial⟩
  | voteResponse term granted =>
    rw [and_iff_left (by trivial)]
    exact onVoteResponse_returns hn hcommit hp hlog hnow
  | appendEntries term prevIndex prevTerm entries leaderCommit =>
    refine iff_of_true ?_ ⟨fun _ => False.elim, trivial⟩
    exact onAppendEntries_returns hn hmsg.1 hnow fun hle => hmsg.2 (le_antisymm hterm hle)
  | appendResponse term success matchIndex =>
    cases success with
    | true =>
      rw [and_iff_left (by simp [HintFits])]
      exact onAppendResponse_true_returns hn hcommit hp hlog
    | false => exact onAppendResponse_false_returns hn hp hlog

theorem Fitting.of_follower {f : Node Disk} {msg : Message} (h : n.Fitting msg)
    (hlog : f.log = n.log) (hrole : f.role = .follower) : f.Fitting msg := by
  cases msg with
  | appendEntries term prevIndex prevTerm entries leaderCommit =>
    refine ⟨?_, fun _ => by simp [hrole]⟩
    rw [lastIndex, hlog]
    exact h.1
  | requestVote term lastLogIndex lastLogTerm => trivial
  | voteResponse term granted => trivial
  | appendResponse term success matchIndex => trivial

theorem handle_eq {sender : Nat} {msg : Message} :
    n.handle now sender msg =
      if sender ∈ n.peers then
        (if n.term < msg.term then n.stepDown now msg.term else pure n) >>=
          fun f => f.receive now sender msg
      else pure (n, []) := by
  unfold handle
  by_cases hp : sender ∈ n.peers
  · obtain ⟨hlt, hne⟩ := mem_peers.mp hp
    rw [if_neg (by omega), if_pos hp]
    cases msg <;> rfl
  · have hignored : sender = n.cfg.id ∨ sender ≥ n.cfg.clusterSize := by
      rw [mem_peers] at hp
      omega
    rw [if_pos hignored, if_neg hp]

theorem stepDown_returns {term : Nat} (hn : n.Formed) (hnow : n.ClockFits now) :
    (n.stepDown now term).Returns := by
  unfold stepDown
  simp only [persistHardState, saveHardState_disk, ok_bind, pure_bind]
  exact resetElectionTimer_returns hn.timeout hnow.1

theorem stepDown_formed {f : Node Disk} {term : Nat} (hn : n.Formed)
    (hf : n.stepDown now term = .ok f) : f.Formed := by
  have hranged := stepDown_ranged hn.ranged hf
  obtain ⟨deadline, rng, rfl⟩ := stepDown_ok hf
  exact { hn with ranged := hranged }

theorem stepDown_sound {f : Node Disk} {term : Nat} (hn : n.Sound)
    (hf : n.stepDown now term = .ok f) : f.Sound := by
  have hformed := stepDown_formed hn.toFormed hf
  obtain ⟨deadline, rng, rfl⟩ := stepDown_ok hf
  exact ⟨hformed, hn.commit_lt, hn.applied_lt⟩

theorem handle_returns {sender : Nat} {msg : Message} (hn : n.Formed)
    (hcommit : n.commitIndex + 1 < wordSize) (hlog : n.log.length + 1 < wordSize)
    (hnow : n.ClockFits now) (hmsg : n.Fitting msg) :
    (n.handle now sender msg).Returns ↔ n.Safe (.call (.handle now sender msg)) := by
  rw [handle_eq]
  split
  swap
  · next hp =>
    exact iff_of_true (.pure _)
      ⟨fun prev hc => absurd hc.1 hp, hintFits_of fun hp' => absurd hp' hp⟩
  next hp =>
  split
  · next hlater =>
    -- the follower that the node has become has no tables to read
    have hsafe : n.Safe (.call (.handle now sender msg)) :=
      ⟨fun prev hc => absurd hc.2.term_eq hlater.ne', hintFits_of fun _ _ => hlater.ne'⟩
    refine iff_of_true ((stepDown_returns hn hnow).bind fun f hf => ?_) hsafe
    have hfn := stepDown_formed hn hf
    obtain ⟨deadline, rng, rfl⟩ := stepDown_ok hf
    refine (receive_returns hfn ?_ ?_ ?_ ?_ ?_ ?_).mpr ⟨fun prev hc => ?_, ?_⟩
    · exact hcommit
    · exact hp
    · exact hlog
    · exact hnow
    · exact hmsg.of_follower rfl rfl
    · exact le_rfl
    · exact absurd hc (not_replyCuts rfl)
    · exact hintFits_of fun _ hrole => nomatch hrole
  · next hle =>
    rw [pure_bind, receive_returns hn hcommit hp hlog hnow hmsg (Nat.le_of_not_lt hle)]
    simp only [Safe, Cuts, hp, true_and]

/-- Delivery reads the log from the applied index to the commit index. -/
theorem takeCommitted_returns (happlied : n.appliedIndex + 1 < wordSize) :
    n.takeCommitted.Returns ↔ (n.appliedIndex < n.commitIndex → n.commitIndex ≤ n.lastIndex) := by
  unfold takeCommitted
  refine Returns.bind_iff_of (.add happlied) fun start hstart => ?_
  obtain ⟨_, rfl⟩ := add_eq_ok.mp hstart
  rw [Returns.bind_pure_iff, Returns.mapM_iff]
  constructor
  · intro h hlt
    have hlast := h n.commitIndex (List.mem_range'_1.mpr (by omega))
    obtain ⟨e, he⟩ := Returns.bind_pure_iff.mp hlast
    have := (List.getElem?_eq_some_iff.mp (get_eq_ok.mp he)).1
    unfold lastIndex
    omega
  · intro h i hi
    rw [List.mem_range'_1] at hi
    have hle : n.commitIndex ≤ n.log.length := h (by omega)
    exact Returns.bind_pure_iff.mpr (.get (by omega))

theorem call_propose_returns {command : List UInt8} :
    (n.call (.propose now command)).Returns ↔ (n.propose now command).Returns := by
  constructor
  · rintro ⟨⟨n', out, answer⟩, h⟩
    obtain ⟨_, h, _⟩ := call_propose_ok h
    exact ⟨_, h⟩
  · refine fun h => h.bind fun result _ => ?_
    obtain ⟨n', answer⟩ := result
    cases answer with
    | ok accepted => exact .pure _
    | error e => exact .pure _

/-- A node answers a request exactly if the request is safe. -/
theorem request_returns {r : Request} (hn : n.Sound) (hadm : n.Admissible r) :
    (n.request r).Returns ↔ n.Safe r := by
  obtain ⟨hterm, hlog, hcall⟩ := hadm
  cases r with
  | takeCommitted => exact Returns.bind_pure_iff.trans (takeCommitted_returns hn.applied_lt)
  | call c =>
    refine Returns.bind_pure_iff.trans ?_
    cases c with
    | tick now =>
      refine Returns.bind_pure_iff.trans ?_
      refine (tick_returns hn.toFormed hn.commit_lt hterm (lt_wordSize hlog) hcall).trans ?_
      exact (and_iff_left trivial).symm
    | propose now command =>
      refine call_propose_returns.trans ((propose_returns hn.toFormed hn.commit_lt).trans ?_)
      exact (and_iff_left trivial).symm
    | handle now sender msg =>
      exact Returns.bind_pure_iff.trans (handle_returns hn.toFormed hn.commit_lt
        (lt_wordSize hlog) hcall.1 (hcall.2.fitting hlog))

/-! ## Runs -/

theorem Scanned.lt_wordSize {k c : Nat} (h : n.Scanned k c) (hcommit : n.commitIndex + 1 < wordSize)
    (hk : k + 1 < wordSize) : c + 1 < wordSize := by
  rcases h with rfl | ⟨_, hle, _⟩
  · exact hcommit
  · omega

theorem becomeLeader_sound (hn : n.Sound) (hlog : n.log.length ≤ maxLength)
    (hrole : n.role ≠ .leader) (h : n.becomeLeader now = .ok (n', out)) : n'.Sound := by
  have hranged := (becomeLeader_booked hrole h).ranged
  obtain ⟨c, deadline, rfl, hc, _⟩ := becomeLeader_ok h
  refine { hn with ranged := hranged, commit_lt := hc.lt_wordSize hn.commit_lt ?_ }
  have hroom := add_lt_wordSize (b := 1) hlog (by decide)
  simpa [inaugurated, lastIndex] using hroom

theorem standing_sound (hn : n.Sound) (deadline : Nat) (rng : UInt64) :
    (n.standing deadline rng).Sound :=
  { hn with
    ranged := hn.ranged.of_ne (by simp [standing]) rfl rfl rfl
    votes_length := by simp [standing] }

theorem tick_sound (hn : n.Sound) (hlog : n.log.length ≤ maxLength)
    (h : n.tick now = .ok (n', out)) : n'.Sound := by
  have hranged := (tick_booked hn.ranged h).ranged
  rcases tick_ok h with ⟨rfl, _⟩ | ⟨_, deadline, rfl, _⟩ | ⟨_, hs⟩
  · exact hn
  · exact { hn with ranged := hranged }
  · obtain ⟨deadline, rng, _, hcase⟩ := startElection_ok hs
    rcases hcase with ⟨_, hl⟩ | ⟨rfl, _⟩
    · exact becomeLeader_sound (standing_sound hn deadline rng) hlog (by simp [standing]) hl
    · exact standing_sound hn deadline rng

theorem propose_sound {command : List UInt8} {answer : Except ProposeError (Nat × List Outgoing)}
    (hn : n.Sound) (hlog : n.log.length ≤ maxLength)
    (h : n.propose now command = .ok (n', answer)) : n'.Sound := by
  have hranged := (propose_booked hn.ranged h).ranged
  rcases propose_ok h with ⟨_, rfl, _⟩ | ⟨_, c, out, rfl, hc, _⟩
  · exact hn
  · refine { hn with ranged := hranged, commit_lt := hc.lt_wordSize hn.commit_lt ?_ }
    have hroom := add_lt_wordSize (b := 1) hlog (by decide)
    simpa [appended, lastIndex] using hroom

theorem onAppendEntries_sound {sender term prevIndex prevTerm leaderCommit : Nat}
    {entries : List Entry} (hn : n.Sound)
    (hroom : prevIndex ≤ n.lastIndex → prevIndex + entries.length + 1 < wordSize)
    (h : n.onAppendEntries now sender term prevIndex prevTerm entries leaderCommit =
      .ok (n', out)) : n'.Sound := by
  have hranged := (onAppendEntries_booked hn.ranged h).ranged
  rcases onAppendEntries_ok h with ⟨_, rfl, _⟩ | ⟨_, _, deadline, rng, hcase⟩
  · exact hn
  rcases hcase with ⟨_, rfl, _⟩ | ⟨hprev, _, m, hm, rfl, _⟩
  · exact { hn with ranged := hranged }
  · -- the commit index stays within what the message verified
    have hle : prevIndex ≤ n.log.length := hprev
    have hroom := hroom hle
    have hmerged : m.cfg = n.cfg ∧ m.votes = n.votes ∧ m.commitIndex = n.commitIndex ∧
        m.appliedIndex = n.appliedIndex := by
      rcases mergeEntries_ok (k := 0) hprev hm with ⟨rfl, _⟩ | ⟨j, e, _, _, _, _, rfl⟩
      · exact ⟨rfl, rfl, rfl, rfl⟩
      · unfold spliced
        split <;> exact ⟨rfl, rfl, rfl, rfl⟩
    obtain ⟨hcfg, hvotes, hcommit, happlied⟩ := hmerged
    have hmsound : ∀ c, c + 1 < wordSize → ({ m with commitIndex := c } : Node Disk).Ranged →
        ({ m with commitIndex := c } : Node Disk).Sound := by
      intro c hc hr
      refine ⟨⟨hr, ?_, ?_, ?_⟩, hc, ?_⟩
      · simpa [hcfg] using hn.id_lt
      · simpa [hcfg] using hn.timeout
      · simpa [hcfg, hvotes] using hn.votes_length
      · simpa [happlied] using hn.applied_lt
    unfold committing at hranged ⊢
    split
    · next hlt =>
      rw [if_pos hlt] at hranged
      exact hmsound _ (by omega) hranged
    · next hge =>
      rw [if_neg hge] at hranged
      exact hmsound m.commitIndex (by rw [hcommit]; exact hn.commit_lt) hranged

theorem receive_sound {sender : Nat} {msg : Message} (hn : n.Sound) (hp : sender ∈ n.peers)
    (hlog : n.log.length ≤ maxLength) (hmsg : n.Fitting msg)
    (h : n.receive now sender msg = .ok (n', out)) : n'.Sound := by
  have hranged := (receive_booked hn.ranged hp h).ranged
  cases msg with
  | requestVote term lastLogIndex lastLogTerm =>
    rcases onRequestVote_ok h with ⟨rfl, _⟩ | ⟨_, _, _, _, deadline, rng, rfl⟩
    · exact hn
    · exact { hn with ranged := hranged }
  | voteResponse term granted =>
    rcases onVoteResponse_ok h with ⟨rfl, _⟩ | ⟨hrole, _, _, _, hcase⟩
    · exact hn
    have hvoted : ({ n with votes := n.votes.set sender true } : Node Disk).Sound :=
      { hn with
        ranged := hn.ranged.of_ne (by simp [hrole]) rfl rfl rfl
        votes_length := by simpa using hn.votes_length }
    rcases hcase with ⟨_, hl⟩ | ⟨rfl, _⟩
    · exact becomeLeader_sound hvoted hlog (by simp [hrole]) hl
    · exact hvoted
  | appendEntries term prevIndex prevTerm entries leaderCommit =>
    exact onAppendEntries_sound hn hmsg.1 h
  | appendResponse term success matchIndex =>
    rcases onAppendResponse_ok h with ⟨_, rfl, _⟩ | ⟨_, _, known, _, hcase⟩
    · exact hn
    rcases hcase with ⟨_, hcommit, _⟩ | ⟨_, next, o, _, rfl, _⟩
    · obtain ⟨c, rfl, hc⟩ := advanceCommit_ok hcommit
      exact { hn with
        ranged := hranged
        commit_lt := hc.lt_wordSize hn.commit_lt (lt_wordSize hlog) }
    · exact { hn with ranged := hranged }

theorem handle_sound {sender : Nat} {msg : Message} (hn : n.Sound)
    (hlog : n.log.length ≤ maxLength) (hmsg : n.Fitting msg)
    (h : n.handle now sender msg = .ok (n', out)) : n'.Sound := by
  rcases handle_ok h with ⟨_, rfl, _⟩ | ⟨hne, hlt, ⟨_, hr⟩ | ⟨_, f, hf, hr⟩⟩
  · exact hn
  · exact receive_sound hn (mem_peers.mpr ⟨hlt, hne⟩) hlog hmsg hr
  · have hfn := stepDown_sound hn hf
    obtain ⟨deadline, rng, rfl⟩ := stepDown_ok hf
    exact receive_sound hfn (mem_peers.mpr ⟨hlt, hne⟩) hlog (hmsg.of_follower rfl rfl) hr

theorem request_sound {r : Request} (hn : n.Sound) (hadm : n.Admissible r)
    (h : n.request r = .ok n') : n'.Sound := by
  obtain ⟨_, hlog, hcall⟩ := hadm
  cases r with
  | takeCommitted =>
    obtain ⟨⟨n₁, batch⟩, ht, h⟩ := bind_eq_ok.mp h
    cases h
    obtain ⟨rfl, _⟩ := takeCommitted_ok ht
    exact { hn with
      ranged := hn.ranged.of_isPrefix rfl rfl rfl rfl List.prefix_rfl
      applied_lt := hn.commit_lt }
  | call c =>
    obtain ⟨⟨n₁, out, answer⟩, hc, h⟩ := bind_eq_ok.mp h
    cases h
    cases c with
    | tick now =>
      obtain ⟨ht, rfl⟩ := call_tick_ok hc
      exact tick_sound hn hlog ht
    | propose now command =>
      obtain ⟨_, hp, _⟩ := call_propose_ok hc
      exact propose_sound hn hlog hp
    | handle now sender msg =>
      obtain ⟨hh, rfl⟩ := call_handle_ok hc
      exact handle_sound hn hlog (hcall.2.fitting hlog) hh

theorem new_sound {cfg : Config} {d : Disk} (h : new cfg d now = .ok n) : n.Sound := by
  have htimeout := new_timeout h
  obtain ⟨hid, deadline, rng, rfl⟩ := new_ok h
  exact ⟨⟨fresh_ranged cfg d deadline rng, hid, htimeout, List.length_replicate⟩,
    (by decide : 0 + 1 < wordSize), (by decide : 0 + 1 < wordSize)⟩

theorem requestStep_eq_some {r : Request} : n.requestStep r = some n' ↔ n.request r = .ok n' := by
  unfold requestStep
  cases n.request r <;> simp [Except.toOption]

/-- In a run of admissible requests, whatever messages it brings, a further admissible request
is answered exactly if it is safe; and a run whose requests are all safe never panics. -/
theorem request_returns_iff_safe {cfg : Config} {d : Disk} {start : Node Disk}
    (hnew : new cfg d now = .ok start) :
    (∀ rs n, Run.exec requestStep start rs = some n →
      Run.Throughout requestStep Admissible start rs →
      ∀ r, n.Admissible r → ((n.request r).Returns ↔ n.Safe r)) ∧
    ∀ rs, Run.Throughout requestStep (fun n r => n.Admissible r ∧ n.Safe r) start rs →
      ∃ n, Run.exec requestStep start rs = some n := by
  have hstart := new_sound hnew
  constructor
  · intro rs n hrun hadm r hr
    have halways := hadm.always hstart fun m m' r' hm hr' hstep =>
      request_sound hm hr' (requestStep_eq_some.mp hstep)
    exact request_returns (halways rs List.prefix_rfl n hrun) hr
  · intro rs hsafe
    obtain ⟨n, hn, _⟩ := hsafe.completes hstart fun m r hm hr => by
      obtain ⟨m', hm'⟩ := (request_returns hm hr.1).mpr hr.2
      exact ⟨m', requestStep_eq_some.mpr hm', request_sound hm hr.1 hm'⟩
    exact ⟨n, hn⟩

/-! ## Requests that panic -/

/-- The first node wins its term. -/
def elected : List Request :=
  [.call (.tick 1), .call (.handle 1 1 (.voteResponse 1 true))]

def leading : Node Disk := (Run.exec requestStep launched elected).get (by decide +kernel)

/-- Two committed entries are replaced by one of a later term. -/
def displaced : List Request :=
  [.call (.handle 0 1 (.appendEntries 1 0 0 [⟨1, []⟩, ⟨1, [7]⟩] 2)),
    .call (.handle 0 2 (.appendEntries 2 0 0 [⟨2, []⟩] 0))]

def shortened : Node Disk := (Run.exec requestStep launched displaced).get (by decide +kernel)

/-- Node 1 acknowledges the no-op of the new leader. -/
def caughtUp : List Request := elected ++ [.call (.handle 1 1 (.appendResponse 1 true 1))]

/-- A node that sends all it has at once. -/
def unlimited : Config := { System.eager 0 with maxBatch := wordSize - 1 }

/-- After the admissible requests `rs` to a node started on the empty storage, the admissible
request `r` panics with `p`. -/
def PanicsAfter (cfg : Config) (rs : List Request) (r : Request) (p : Panic) : Prop :=
  ∃ start n, new cfg Disk.empty 0 = .ok start ∧ Run.exec requestStep start rs = some n ∧
    Run.Throughout requestStep Admissible start rs ∧ n.Admissible r ∧ n.request r = .error p

/-- The largest hint in a failed reply overflows at the leader, delivery runs past a log that a
conflict has made shorter than the commit index, and an unlimited batch overflows as soon as it
does not start at the first entry. -/
theorem admissible_requests_panic :
    PanicsAfter (System.eager 0) elected
        (.call (.handle 1 1 (.appendResponse 1 false (wordSize - 1)))) .overflow ∧
      PanicsAfter (System.eager 0) displaced .takeCommitted .outOfRange ∧
      PanicsAfter unlimited caughtUp (.call (.propose 1 [7])) .overflow := by
  refine ⟨⟨launched, leading, eq_ok_get _, (Option.some_get _).symm, ?_⟩,
    ⟨launched, shortened, eq_ok_get _, (Option.some_get _).symm, ?_⟩,
    ⟨_, _, eq_ok_get (by decide +kernel), (Option.some_get (by decide +kernel)).symm, ?_⟩⟩
  · exact ⟨by decide +kernel, by decide +kernel, panicOf_eq_some.mp (by decide +kernel)⟩
  · exact ⟨by decide +kernel, by decide +kernel, panicOf_eq_some.mp (by decide +kernel)⟩
  · exact ⟨by decide +kernel, by decide +kernel, panicOf_eq_some.mp (by decide +kernel)⟩

/-- Of the new leader's requests, delivery returns and the failed reply with the largest hint
does not. -/
theorem request_returns_iff_safe_leading :
    (leading.request .takeCommitted).Returns ∧
      ¬ (leading.request
        (.call (.handle 1 1 (.appendResponse 1 false (wordSize - 1))))).Returns := by
  have hiff := (request_returns_iff_safe
    (eq_ok_get (x := new (System.eager 0) Disk.empty 0) (by decide +kernel))).1 elected leading
    (Option.some_get _).symm (by decide +kernel)
  refine ⟨(hiff _ (by decide +kernel)).mpr ?_, fun h => ?_⟩
  · exact (by decide +kernel : leading.appliedIndex < leading.commitIndex →
      leading.commitIndex ≤ leading.lastIndex)
  · have hsafe := (hiff _ (by decide +kernel)).mp h
    exact absurd (hsafe.2 (by decide +kernel) (by decide +kernel) (by decide +kernel) rfl)
      (by decide)

end Node

end Landsraad
