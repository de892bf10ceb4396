import Landsraad.Raft.Node

/-!
# What each method of a node does

One inversion lemma per method: from a normal return it gives the node after the call, field
by field, and the messages. Later proofs read these and do not unfold a method again. Timers
and randomness are left open here.
-/

namespace Landsraad

open Checked

/-- `t` is the term of the entry at `index`, where index 0 has term 0. -/
def TermAt (log : List Entry) (index : Nat) (t : Nat) : Prop :=
  (index = 0 ∧ t = 0) ∨ (0 < index ∧ ∃ e, log[index - 1]? = some e ∧ e.term = t)

/-- `entries` directly follow index `prevIndex` of `log`, whose term is `prevTerm`. -/
def IsSlice (log : List Entry) (prevIndex : Nat) (prevTerm : Nat) (entries : List Entry) :
    Prop :=
  prevIndex ≤ log.length ∧ TermAt log prevIndex prevTerm ∧ entries <+: log.drop prevIndex

namespace Node

variable {n n' : Node Disk} {now : Nat} {out : List Outgoing}

theorem termAt_eq_ok {index : Nat} {t : Nat} : n.termAt index = .ok t ↔ TermAt n.log index t := by
  unfold termAt TermAt
  split
  · next h => subst h; simp [eq_comm]
  · next h =>
    simp only [bind_eq_ok, get_eq_ok, pure_eq_ok]
    constructor
    · exact fun hx => .inr ⟨Nat.pos_of_ne_zero h, hx⟩
    · rintro (⟨h0, _⟩ | ⟨_, hx⟩)
      · exact absurd h0 h
      · exact hx

theorem mem_peers {p : Nat} : p ∈ n.peers ↔ p < n.cfg.clusterSize ∧ p ≠ n.cfg.id := by
  simp [peers]

theorem nodup_peers : n.peers.Nodup := List.nodup_range.filter _

theorem resetElectionTimer_ok {σ : Type} {n n' : Node σ}
    (h : n.resetElectionTimer now = .ok n') :
    ∃ deadline rng, n' = { n with electionDeadline := deadline, rng := rng } := by
  simp only [resetElectionTimer, nextRand, bind_eq_ok, pure_eq_ok] at h
  obtain ⟨_, _, _, _, _, _, deadline, _, rfl⟩ := h
  exact ⟨deadline, _, rfl⟩

theorem stepDown_ok {term : Nat} (h : n.stepDown now term = .ok n') :
    ∃ deadline rng, n' = { n with
      term := term
      votedFor := none
      storage := n.storage.write { n.storage.current with term := term, votedFor := none }
      role := .follower
      leaderId := none
      electionDeadline := deadline
      rng := rng } := by
  simp only [stepDown, persistHardState, saveHardState_disk, ok_bind, bind_eq_ok, pure_eq_ok] at h
  obtain ⟨_, rfl, h⟩ := h
  obtain ⟨deadline, rng, rfl⟩ := resetElectionTimer_ok h
  exact ⟨deadline, rng, rfl⟩

/-- An AppendEntries follows the next index of its recipient and carries a full batch, or all
that is left of the log. -/
theorem appendFor_ok {p : Nat} {o : Outgoing} (h : n.appendFor p = .ok o) :
    ∃ prevIndex prevTerm entries, IsSlice n.log prevIndex prevTerm entries ∧
      o = ⟨p, .appendEntries n.term prevIndex prevTerm entries n.commitIndex⟩ ∧
      (∃ next, n.nextIndex[p]? = some next ∧ 1 ≤ next ∧ prevIndex = next - 1) ∧
      entries.length = min n.cfg.maxBatch (n.log.length - prevIndex) := by
  simp only [appendFor, bind_eq_ok, pure_eq_ok, get_eq_ok, sub_eq_ok, add_eq_ok, slice_eq_ok,
    termAt_eq_ok] at h
  obtain ⟨next, hnext, prevIndex, hprev, stop, ⟨_, rfl⟩, prevTerm, hterm, entries,
    ⟨hle, hlen, rfl⟩, rfl⟩ := h
  refine ⟨prevIndex, prevTerm, _, ⟨hle.trans hlen, hterm, ?_⟩, rfl, ⟨next, hnext, hprev⟩, ?_⟩
  · rw [List.drop_take]
    exact List.take_prefix _ _
  · rw [List.length_drop, List.length_take]
    omega

theorem broadcastAppend_sends (h : n.broadcastAppend = .ok out) {o : Outgoing} (ho : o ∈ out) :
    o.recipient ∈ n.peers ∧ n.appendFor o.recipient = .ok o := by
  have hall := mapM_eq_ok h
  obtain ⟨i, hi, rfl⟩ := List.getElem_of_mem ho
  have hi' : i < n.peers.length := by rw [hall.length_eq]; exact hi
  have hfor := hall.get hi' hi
  obtain ⟨prevIndex, prevTerm, entries, _, he, _⟩ := appendFor_ok hfor
  rw [List.get_eq_getElem] at hfor he
  have hpeer : out[i].recipient = n.peers.get ⟨i, hi'⟩ := by rw [he]
  rw [hpeer]
  exact ⟨List.get_mem n.peers ⟨i, hi'⟩, hfor⟩

theorem broadcastAppend_reaches (h : n.broadcastAppend = .ok out) {p : Nat} (hp : p ∈ n.peers) :
    ∃ o ∈ out, n.appendFor p = .ok o := by
  have hall := mapM_eq_ok h
  obtain ⟨i, hi, rfl⟩ := List.getElem_of_mem hp
  have hi' : i < out.length := by rw [← hall.length_eq]; exact hi
  exact ⟨out[i], List.getElem_mem hi', hall.get hi hi'⟩

theorem broadcastAppend_ok (h : n.broadcastAppend = .ok out) : ∀ o ∈ out,
    o.recipient ≠ n.cfg.id ∧ ∃ prevIndex prevTerm entries,
      IsSlice n.log prevIndex prevTerm entries ∧
      o.message = .appendEntries n.term prevIndex prevTerm entries n.commitIndex := by
  intro o ho
  obtain ⟨hpeer, hfor⟩ := broadcastAppend_sends h ho
  obtain ⟨prevIndex, prevTerm, entries, hsl, he, _⟩ := appendFor_ok hfor
  exact ⟨(mem_peers.mp hpeer).2, prevIndex, prevTerm, entries, hsl, by rw [he]⟩

/-! ## Commitment -/

theorem replicasAmong_ok {k : Nat} {ps : List Nat} {m : Nat}
    (h : n.replicasAmong k ps = .ok m) :
    m = (ps.filter fun p => (n.matchIndex[p]?).any (k ≤ ·)).length := by
  induction ps generalizing m with
  | nil =>
    simp only [replicasAmong, Except.ok.injEq] at h
    simp [← h]
  | cons p ps ih =>
    simp only [replicasAmong, bind_eq_ok, get_eq_ok, pure_eq_ok] at h
    obtain ⟨x, hx, rest, hrest, rfl⟩ := h
    rw [List.filter_cons, ih hrest]
    by_cases hk : k ≤ x <;> simp [hx, hk]

/-- Index `c` holds an entry of the current term that a quorum is known to store. -/
def Replicated (n : Node Disk) (c : Nat) : Prop :=
  TermAt n.log c n.term ∧ ∃ m, n.replicasAmong c n.peers = .ok m ∧ n.quorum ≤ 1 + m

/-- The scan from `k` down to the commit index may end with the commit index `c`. -/
def Scanned (n : Node Disk) (k c : Nat) : Prop :=
  c = n.commitIndex ∨ (n.commitIndex < c ∧ c ≤ k ∧ n.Replicated c)

theorem Scanned.le {k c : Nat} (h : n.Scanned k c) : n.commitIndex ≤ c := by
  rcases h with rfl | ⟨hlt, _⟩
  · exact le_rfl
  · exact hlt.le

theorem commitScan_ok {k : Nat} (h : n.commitScan k = .ok n') :
    ∃ c, n' = { n with commitIndex := c } ∧ n.Scanned k c := by
  induction k with
  | zero =>
    simp only [commitScan, Except.ok.injEq] at h
    exact ⟨n.commitIndex, h.symm, .inl rfl⟩
  | succ k ih =>
    rw [commitScan] at h
    split at h
    · cases h
      exact ⟨n.commitIndex, rfl, .inl rfl⟩
    · next hk =>
      obtain ⟨t, ht, h⟩ := bind_eq_ok.mp h
      split at h
      · cases h
        exact ⟨n.commitIndex, rfl, .inl rfl⟩
      · next hterm =>
        obtain ⟨m, hm, h⟩ := bind_eq_ok.mp h
        dsimp only at h
        split at h
        · next hq =>
          cases h
          refine ⟨k + 1, rfl, .inr ⟨by omega, le_rfl, ?_, m, hm, hq⟩⟩
          rw [← not_ne_iff.mp hterm]
          exact termAt_eq_ok.mp ht
        · obtain ⟨c, hc, hcase⟩ := ih h
          exact ⟨c, hc, hcase.imp id fun ⟨h1, h2, h3⟩ => ⟨h1, h2.trans (Nat.le_succ k), h3⟩⟩

theorem advanceCommit_ok (h : n.advanceCommit = .ok n') :
    ∃ c, n' = { n with commitIndex := c } ∧ n.Scanned n.lastIndex c := by
  obtain ⟨_, _, h⟩ := bind_eq_ok.mp h
  exact commitScan_ok h

/-! ## Elections -/

/-- The node at the start of its leadership, before it looks at its commit index. -/
def inaugurated (n : Node Disk) : Node Disk :=
  { n with
    role := .leader
    leaderId := some n.cfg.id
    nextIndex := List.replicate n.cfg.clusterSize (n.lastIndex + 1)
    matchIndex := List.replicate n.cfg.clusterSize 0
    storage := n.storage.write
      { n.storage.current with log := n.storage.current.log ++ [⟨n.term, []⟩] }
    log := n.log ++ [⟨n.term, []⟩] }

theorem becomeLeader_ok (h : n.becomeLeader now = .ok (n', out)) :
    ∃ c deadline, n' = { n.inaugurated with commitIndex := c, heartbeatDeadline := deadline } ∧
      n.inaugurated.Scanned n.inaugurated.lastIndex c ∧ n'.broadcastAppend = .ok out ∧
      n.inaugurated.advanceCommit = .ok { n.inaugurated with commitIndex := c } := by
  simp only [becomeLeader, append_disk, ok_bind, bind_eq_ok, add_eq_ok, pure_eq_ok] at h
  obtain ⟨next, ⟨_, rfl⟩, n₁, hcommit, deadline, _, out', hout, h⟩ := h
  obtain ⟨c, rfl, hc⟩ := advanceCommit_ok hcommit
  obtain ⟨rfl, rfl⟩ := Prod.mk.inj h
  exact ⟨c, deadline, rfl, hc, hout, hcommit⟩

/-- The candidate that `startElection` sets up. -/
def standing (n : Node Disk) (deadline : Nat) (rng : UInt64) : Node Disk :=
  { n with
    term := n.term + 1
    votedFor := some n.cfg.id
    storage := n.storage.write
      { n.storage.current with term := n.term + 1, votedFor := some n.cfg.id }
    role := .candidate
    leaderId := none
    votes := (List.replicate n.cfg.clusterSize false).set n.cfg.id true
    electionDeadline := deadline
    rng := rng }

theorem startElection_ok (h : n.startElection now = .ok (n', out)) :
    ∃ deadline rng, n.cfg.id < n.cfg.clusterSize ∧
      let c := n.standing deadline rng
      ((c.quorum ≤ c.votes.count true ∧ c.becomeLeader now = .ok (n', out)) ∨
        (n' = c ∧ ∃ t, TermAt c.log c.lastIndex t ∧
          out = c.peers.map fun p => ⟨p, .requestVote c.term c.lastIndex t⟩)) := by
  simp only [startElection, persistHardState, saveHardState_disk, ok_bind, bind_eq_ok, add_eq_ok,
    pure_eq_ok, set_eq_ok, List.length_replicate] at h
  obtain ⟨term, ⟨_, rfl⟩, n₁, rfl, votes, ⟨hid, rfl⟩, n₂, hn₂, h⟩ := h
  obtain ⟨deadline, rng, rfl⟩ := resetElectionTimer_ok hn₂
  refine ⟨deadline, rng, hid, ?_⟩
  split at h
  · next hq => exact .inl ⟨hq, h⟩
  · obtain ⟨t, ht, h⟩ := bind_eq_ok.mp h
    rw [pure_eq_ok] at h
    obtain ⟨rfl, rfl⟩ := Prod.mk.inj h
    exact .inr ⟨rfl, t, termAt_eq_ok.mp ht, rfl⟩

theorem tick_ok (h : n.tick now = .ok (n', out)) :
    (n' = n ∧ out = []) ∨
      (n.role = .leader ∧ ∃ deadline, n' = { n with heartbeatDeadline := deadline } ∧
        n'.broadcastAppend = .ok out) ∨
      (n.role ≠ .leader ∧ n.startElection now = .ok (n', out)) := by
  unfold tick at h
  split at h
  · next hrole =>
    split at h
    · obtain ⟨deadline, _, h⟩ := bind_eq_ok.mp h
      obtain ⟨out', hout, h⟩ := bind_eq_ok.mp h
      rw [pure_eq_ok] at h
      obtain ⟨rfl, rfl⟩ := Prod.mk.inj h
      exact .inr (.inl ⟨hrole, deadline, rfl, hout⟩)
    · cases h
      exact .inl ⟨rfl, rfl⟩
  · next hrole =>
    split at h
    · exact .inr (.inr ⟨hrole, h⟩)
    · cases h
      exact .inl ⟨rfl, rfl⟩

/-- A leader whose heartbeat is due broadcasts. -/
theorem tick_due (hrole : n.role = .leader) (hdue : n.heartbeatDeadline ≤ now)
    (h : n.tick now = .ok (n', out)) :
    ∃ deadline, n' = { n with heartbeatDeadline := deadline } ∧ n'.broadcastAppend = .ok out := by
  unfold tick at h
  split at h
  · rw [if_pos hdue] at h
    obtain ⟨deadline, _, h⟩ := bind_eq_ok.mp h
    obtain ⟨out', hout, h⟩ := bind_eq_ok.mp h
    rw [pure_eq_ok] at h
    obtain ⟨rfl, rfl⟩ := Prod.mk.inj h
    exact ⟨deadline, rfl, hout⟩
  · next hno => exact absurd hrole hno

/-- The candidate's log is at least as up to date as the node's own. -/
def LogUpToDate (n : Node Disk) (lastLogIndex : Nat) (lastLogTerm : Nat) : Prop :=
  ∃ t, TermAt n.log n.lastIndex t ∧
    (t < lastLogTerm ∨ (lastLogTerm = t ∧ n.lastIndex ≤ lastLogIndex))

theorem onRequestVote_ok {sender term lastLogIndex lastLogTerm : Nat}
    (h : n.onRequestVote now sender term lastLogIndex lastLogTerm = .ok (n', out)) :
    (n' = n ∧ out = [⟨sender, .voteResponse n.term false⟩]) ∨
      (term = n.term ∧ (n.votedFor = none ∨ n.votedFor = some sender) ∧
        n.LogUpToDate lastLogIndex lastLogTerm ∧
        out = [⟨sender, .voteResponse n.term true⟩] ∧ ∃ deadline rng, n' = { n with
          votedFor := some sender
          storage := n.storage.write
            { n.storage.current with term := n.term, votedFor := some sender }
          electionDeadline := deadline
          rng := rng }) := by
  unfold onRequestVote at h
  dsimp only at h
  split at h
  · next hterm =>
    obtain ⟨t, ht, h⟩ := bind_eq_ok.mp h
    split at h
    · next hgrant =>
      simp only [persistHardState, saveHardState_disk, ok_bind, bind_eq_ok, pure_eq_ok] at h
      obtain ⟨_, rfl, n₁, hn₁, h⟩ := h
      obtain ⟨deadline, rng, rfl⟩ := resetElectionTimer_ok hn₁
      obtain ⟨rfl, rfl⟩ := Prod.mk.inj h
      exact .inr ⟨hterm, hgrant.1, ⟨t, termAt_eq_ok.mp ht, hgrant.2⟩, rfl, deadline, rng, rfl⟩
    · cases h
      exact .inl ⟨rfl, rfl⟩
  · cases h
    exact .inl ⟨rfl, rfl⟩

theorem onVoteResponse_ok {sender term : Nat} {granted : Bool}
    (h : n.onVoteResponse now sender term granted = .ok (n', out)) :
    (n' = n ∧ out = []) ∨
      (n.role = .candidate ∧ term = n.term ∧ granted = true ∧ sender < n.votes.length ∧
        let c := { n with votes := n.votes.set sender true }
        ((c.quorum ≤ c.votes.count true ∧ c.becomeLeader now = .ok (n', out)) ∨
          (n' = c ∧ out = []))) := by
  unfold onVoteResponse at h
  split at h
  · cases h
    exact .inl ⟨rfl, rfl⟩
  · next hcond =>
    simp only [not_or, not_not, Bool.not_eq_false] at hcond
    simp only [bind_eq_ok, set_eq_ok] at h
    obtain ⟨votes, ⟨hlt, rfl⟩, h⟩ := h
    refine .inr ⟨hcond.1, hcond.2.1, hcond.2.2, hlt, ?_⟩
    split at h
    · next hq => exact .inl ⟨hq, h⟩
    · cases h
      exact .inr ⟨rfl, rfl⟩

/-! ## Replication -/

/-- The node after the entry `e` was appended to its log and its storage. -/
def appended (n : Node Disk) (e : Entry) : Node Disk :=
  { n with
    storage := n.storage.write { n.storage.current with log := n.storage.current.log ++ [e] }
    log := n.log ++ [e] }

theorem propose_ok {command : List UInt8} {answer : Except ProposeError (Nat × List Outgoing)}
    (h : n.propose now command = .ok (n', answer)) :
    (n.role ≠ .leader ∧ n' = n ∧ answer = .error (.notLeader n.leaderId)) ∨
      (n.role = .leader ∧ ∃ c out, n' = { n.appended ⟨n.term, command⟩ with commitIndex := c } ∧
        (n.appended ⟨n.term, command⟩).Scanned (n.appended ⟨n.term, command⟩).lastIndex c ∧
        answer = .ok (n.lastIndex + 1, out) ∧ n'.broadcastAppend = .ok out ∧
        (n.appended ⟨n.term, command⟩).advanceCommit = .ok n') := by
  unfold propose at h
  split at h
  · next hrole =>
    cases h
    exact .inl ⟨hrole, rfl, rfl⟩
  · next hrole =>
    simp only [append_disk, ok_bind, bind_eq_ok, pure_eq_ok] at h
    obtain ⟨n₁, hcommit, out, hout, h⟩ := h
    obtain ⟨c, rfl, hc⟩ := advanceCommit_ok hcommit
    obtain ⟨rfl, rfl⟩ := Prod.mk.inj h
    refine .inr ⟨not_ne_iff.mp hrole, c, out, rfl, hc, ?_, hout, hcommit⟩
    simp [lastIndex]

/-- The node after it dropped its log from position `k` on. -/
def truncated (n : Node Disk) (k : Nat) : Node Disk :=
  { n with
    storage := n.storage.write { n.storage.current with log := n.storage.current.log.take k }
    log := n.log.take k }

/-- The node after it wrote `entries` at the end of its log. -/
def extended (n : Node Disk) (entries : List Entry) : Node Disk :=
  { n with
    storage := n.storage.write { n.storage.current with log := n.storage.current.log ++ entries }
    log := n.log ++ entries }

/-- The node after an AppendEntries replaced everything from position `k` on by `entries`. -/
def spliced (n : Node Disk) (k : Nat) (entries : List Entry) : Node Disk :=
  (if k < n.log.length then n.truncated k else n).extended entries

@[simp] theorem spliced_role {k : Nat} {entries : List Entry} :
    (n.spliced k entries).role = n.role := by
  unfold spliced
  split <;> rfl

@[simp] theorem spliced_term {k : Nat} {entries : List Entry} :
    (n.spliced k entries).term = n.term := by
  unfold spliced
  split <;> rfl

theorem spliced_log {k : Nat} {entries : List Entry} :
    (n.spliced k entries).log = n.log.take k ++ entries := by
  unfold spliced
  split
  · rfl
  · next hge =>
    rw [List.take_of_length_le (Nat.le_of_not_lt hge)]
    rfl

/-- The entries of the log from position `k` on have the terms of `entries`. -/
def SameTerms (log : List Entry) (k : Nat) (entries : List Entry) : Prop :=
  ∀ i e, entries[i]? = some e → ∃ e', log[k + i]? = some e' ∧ e'.term = e.term

theorem SameTerms.cons {log rest : List Entry} {k : Nat} {e x : Entry} (hx : log[k]? = some x)
    (hxt : x.term = e.term) (h : SameTerms log (k + 1) rest) : SameTerms log k (e :: rest) := by
  intro i y hy
  cases i with
  | zero =>
    obtain rfl : e = y := by simpa using hy
    exact ⟨x, hx, hxt⟩
  | succ i =>
    obtain ⟨z, hz, hzt⟩ := h i y (by simpa using hy)
    exact ⟨z, by rw [← hz]; congr 1; omega, hzt⟩

/-- Either the log has all the entries already, or the first one it lacks and everything after
it are written at the end of the log or in place of a conflicting tail. -/
theorem mergeEntries_ok {prevIndex : Nat} {k : Nat} {entries : List Entry}
    (hpos : prevIndex + k ≤ n.log.length)
    (h : n.mergeEntries prevIndex k entries = .ok n') :
    (n' = n ∧ SameTerms n.log (prevIndex + k) entries) ∨
      ∃ j e, entries[j]? = some e ∧ SameTerms n.log (prevIndex + k) (entries.take j) ∧
        prevIndex + k + j ≤ n.log.length ∧
        (∀ e', n.log[prevIndex + k + j]? = some e' → e'.term ≠ e.term) ∧
        n' = n.spliced (prevIndex + k + j) (entries.drop j) := by
  induction entries generalizing k with
  | nil =>
    cases h
    exact .inl ⟨rfl, fun i e he => by simp at he⟩
  | cons e rest ih =>
    simp only [mergeEntries, bind_eq_ok, add_eq_ok] at h
    obtain ⟨_, ⟨_, rfl⟩, idx, ⟨_, rfl⟩, h⟩ := h
    have hidx : prevIndex + 1 + k - 1 = prevIndex + k := by omega
    split at h
    · next hle =>
      have hlt : prevIndex + k < n.log.length := by unfold lastIndex at hle; omega
      obtain ⟨t, ht, h⟩ := bind_eq_ok.mp h
      rw [termAt_eq_ok] at ht
      rcases ht with ⟨h0, _⟩ | ⟨_, x, hx, hxt⟩
      · omega
      rw [hidx] at hx
      split at h
      · next hsame =>
        rcases ih (k := k + 1) (by omega) h with ⟨rfl, hst⟩ | ⟨j, e', he', hst, hj, hne, rfl⟩
        · exact .inl ⟨rfl, .cons hx (hxt.trans hsame) hst⟩
        · refine .inr ⟨j + 1, e', by simpa using he', .cons hx (hxt.trans hsame) hst, by omega,
            ?_, ?_⟩
          · intro y hy
            exact hne y (by rw [← hy]; congr 1; omega)
          · rw [List.drop_succ_cons]
            congr 1
            omega
      · next hdiff =>
        simp only [truncateFrom_disk, append_disk, ok_bind, pure_eq_ok, hidx] at h
        subst h
        refine .inr ⟨0, e, rfl, fun i y hy => by simp at hy, hpos, ?_, ?_⟩
        · intro y hy
          rw [Nat.add_zero, hx] at hy
          cases hy
          exact fun hy => hdiff (hxt.symm.trans hy)
        · simp [spliced, truncated, extended, hlt]
    · next hgt =>
      have hend : prevIndex + k = n.log.length := by unfold lastIndex at hgt; omega
      simp only [append_disk, ok_bind, pure_eq_ok] at h
      subst h
      refine .inr ⟨0, e, rfl, fun i y hy => by simp at hy, hpos, ?_, ?_⟩
      · intro y hy
        rw [Nat.add_zero, hend] at hy
        simp at hy
      · simp [spliced, extended, hend]

/-- The node once it has accepted `sender` as the leader of its term. -/
def following (n : Node Disk) (sender deadline : Nat) (rng : UInt64) : Node Disk :=
  { n with
    role := .follower
    leaderId := some sender
    electionDeadline := deadline
    rng := rng }

/-- The commit index after an accepted AppendEntries that verified the log up to `matched`. -/
def committing (n : Node Disk) (leaderCommit matched : Nat) : Node Disk :=
  if n.commitIndex < leaderCommit then { n with commitIndex := min leaderCommit matched } else n

theorem onAppendEntries_ok {sender term prevIndex prevTerm leaderCommit : Nat}
    {entries : List Entry}
    (h : n.onAppendEntries now sender term prevIndex prevTerm entries leaderCommit =
      .ok (n', out)) :
    (term < n.term ∧ n' = n ∧ out = [⟨sender, .appendResponse n.term false 0⟩]) ∨
      (n.term ≤ term ∧ n.role ≠ .leader ∧ ∃ deadline rng,
        let f := n.following sender deadline rng
        ((¬ (prevIndex ≤ f.lastIndex ∧ TermAt f.log prevIndex prevTerm) ∧ n' = f ∧
            out = [⟨sender, .appendResponse f.term false
              (if f.lastIndex < prevIndex then f.lastIndex else prevIndex - 1)⟩]) ∨
          (prevIndex ≤ f.lastIndex ∧ TermAt f.log prevIndex prevTerm ∧
            ∃ m, f.mergeEntries prevIndex 0 entries = .ok m ∧
              n' = m.committing leaderCommit (prevIndex + entries.length) ∧
              out = [⟨sender, .appendResponse m.term true (prevIndex + entries.length)⟩]))) := by
  unfold onAppendEntries at h
  dsimp only at h
  split at h
  · next hlt =>
    cases h
    exact .inl ⟨hlt, rfl, rfl⟩
  · next hge =>
    refine .inr ⟨Nat.le_of_not_lt hge, ?_⟩
    obtain ⟨_, hrole, h⟩ := bind_eq_ok.mp h
    obtain ⟨f, hf, h⟩ := bind_eq_ok.mp h
    obtain ⟨deadline, rng, rfl⟩ := resetElectionTimer_ok hf
    refine ⟨assert_eq_ok.mp hrole, deadline, rng, ?_⟩
    split at h
    · next hgt =>
      cases h
      refine .inl ⟨fun hc => absurd hgt (Nat.not_lt.mpr hc.1), rfl, ?_⟩
      exact congrArg (fun k => [(⟨sender, .appendResponse n.term false k⟩ : Outgoing)])
        (if_pos hgt).symm
    · next hle =>
      obtain ⟨t, ht, h⟩ := bind_eq_ok.mp h
      rw [termAt_eq_ok] at ht
      split at h
      · next hne =>
        cases h
        refine .inl ⟨fun hc => hne ?_, rfl, ?_⟩
        · exact termAt_eq_ok.mpr ht |>.symm.trans (termAt_eq_ok.mpr hc.2) |> Except.ok.inj
        · exact congrArg (fun k => [(⟨sender, .appendResponse n.term false k⟩ : Outgoing)])
            (if_neg hle).symm
      · next heq =>
        obtain ⟨m, hm, h⟩ := bind_eq_ok.mp h
        obtain ⟨matched, hmatched, h⟩ := bind_eq_ok.mp h
        obtain ⟨_, rfl⟩ := add_eq_ok.mp hmatched
        rw [pure_eq_ok] at h
        obtain ⟨rfl, rfl⟩ := Prod.mk.inj h
        rw [not_ne_iff.mp heq] at ht
        refine .inr ⟨Nat.le_of_not_lt hle, ht, m, hm, rfl, ?_⟩
        split <;> rfl

/-- The leader after a successful AppendResponse, before it looks at its commit index. -/
def acknowledged (n : Node Disk) (sender matched : Nat) : Node Disk :=
  { n with
    matchIndex := n.matchIndex.set sender matched
    nextIndex := n.nextIndex.set sender (matched + 1) }

theorem onAppendResponse_ok {sender term matchIndex : Nat} {success : Bool}
    (h : n.onAppendResponse sender term success matchIndex = .ok (n', out)) :
    ((n.role ≠ .leader ∨ term ≠ n.term) ∧ n' = n ∧ out = []) ∨
      (n.role = .leader ∧ term = n.term ∧ ∃ known, n.matchIndex[sender]? = some known ∧
        ((success = true ∧
            (n.acknowledged sender (max known (min matchIndex n.lastIndex))).advanceCommit =
              .ok n' ∧
            ((n.lastIndex ≤ max known (min matchIndex n.lastIndex) ∧ out = []) ∨
              (max known (min matchIndex n.lastIndex) < n.lastIndex ∧
                ∃ o, n'.appendFor sender = .ok o ∧ out = [o]))) ∨
          (success = false ∧ ∃ next o, n.nextIndex[sender]? = some next ∧
            n' = { n with
              nextIndex := n.nextIndex.set sender (max (known + 1) (min next (matchIndex + 1))) } ∧
            n'.appendFor sender = .ok o ∧ out = [o]))) := by
  unfold onAppendResponse at h
  split at h
  · next hcond =>
    cases h
    exact .inl ⟨hcond, rfl, rfl⟩
  · next hcond =>
    simp only [not_or, not_not] at hcond
    obtain ⟨known, hknown, h⟩ := bind_eq_ok.mp h
    refine .inr ⟨hcond.1, hcond.2, known, get_eq_ok.mp hknown, ?_⟩
    split at h
    · next hs =>
      obtain ⟨next, hnext, h⟩ := bind_eq_ok.mp h
      obtain ⟨_, rfl⟩ := add_eq_ok.mp hnext
      obtain ⟨nextIndex, hset, h⟩ := bind_eq_ok.mp h
      obtain ⟨_, rfl⟩ := set_eq_ok.mp hset
      obtain ⟨n₁, hcommit, h⟩ := bind_eq_ok.mp h
      obtain ⟨c, hn₁, _⟩ := advanceCommit_ok hcommit
      have hlast : n₁.lastIndex = n.lastIndex := by rw [hn₁]; rfl
      rw [hlast] at h
      split at h
      · next hmore =>
        obtain ⟨o, ho, h⟩ := bind_eq_ok.mp h
        cases h
        exact .inl ⟨hs, hcommit, .inr ⟨hmore, o, ho, rfl⟩⟩
      · next hall =>
        cases h
        exact .inl ⟨hs, hcommit, .inl ⟨Nat.le_of_lt_succ (Nat.lt_of_not_le hall), rfl⟩⟩
    · next hs =>
      obtain ⟨lowest, hlowest, h⟩ := bind_eq_ok.mp h
      obtain ⟨hint, hhint, h⟩ := bind_eq_ok.mp h
      obtain ⟨_, rfl⟩ := add_eq_ok.mp hlowest
      obtain ⟨_, rfl⟩ := add_eq_ok.mp hhint
      obtain ⟨next, hnext, h⟩ := bind_eq_ok.mp h
      obtain ⟨nextIndex, hset, h⟩ := bind_eq_ok.mp h
      obtain ⟨_, rfl⟩ := set_eq_ok.mp hset
      obtain ⟨o, ho, h⟩ := bind_eq_ok.mp h
      cases h
      exact .inr ⟨Bool.eq_false_iff.mpr hs, next, o, get_eq_ok.mp hnext, rfl, ho, rfl⟩

/-- The method that `handle` calls once the node has the message's term or a later one. -/
def receive (n : Node Disk) (now sender : Nat) : Message → Checked (Node Disk × List Outgoing)
  | .requestVote term lastLogIndex lastLogTerm =>
    n.onRequestVote now sender term lastLogIndex lastLogTerm
  | .voteResponse term granted => n.onVoteResponse now sender term granted
  | .appendEntries term prevIndex prevTerm entries leaderCommit =>
    n.onAppendEntries now sender term prevIndex prevTerm entries leaderCommit
  | .appendResponse term success matchIndex => n.onAppendResponse sender term success matchIndex

theorem handle_ok {sender : Nat} {msg : Message} (h : n.handle now sender msg = .ok (n', out)) :
    ((sender = n.cfg.id ∨ n.cfg.clusterSize ≤ sender) ∧ n' = n ∧ out = []) ∨
      (sender ≠ n.cfg.id ∧ sender < n.cfg.clusterSize ∧
        ((msg.term ≤ n.term ∧ n.receive now sender msg = .ok (n', out)) ∨
          (n.term < msg.term ∧ ∃ f, n.stepDown now msg.term = .ok f ∧
            f.receive now sender msg = .ok (n', out)))) := by
  unfold handle at h
  split at h
  · next hcond =>
    cases h
    exact .inl ⟨hcond, rfl, rfl⟩
  · next hcond =>
    simp only [not_or, not_le] at hcond
    refine .inr ⟨hcond.1, hcond.2, ?_⟩
    obtain ⟨f, hf, h⟩ := bind_eq_ok.mp h
    have hrecv : f.receive now sender msg = .ok (n', out) := by
      cases msg <;> exact h
    split at hf
    · next hgt => exact .inr ⟨hgt, f, hf, hrecv⟩
    · next hle =>
      cases hf
      exact .inl ⟨Nat.le_of_not_lt hle, hrecv⟩

/-- A message of a peer is received by the node itself, or by the follower it has become in the
message's later term. -/
theorem handle_receives {sender : Nat} {msg : Message}
    (h : n.handle now sender msg = .ok (n', out)) :
    ((sender = n.cfg.id ∨ n.cfg.clusterSize ≤ sender) ∧ n' = n ∧ out = []) ∨
      (sender ≠ n.cfg.id ∧ sender < n.cfg.clusterSize ∧ ∃ f,
        f.receive now sender msg = .ok (n', out) ∧ f.log = n.log ∧ f.cfg = n.cfg ∧
        f.term = max n.term msg.term ∧
        (f = n ∨ (n.term < msg.term ∧ f.role = .follower))) := by
  rcases handle_ok h with hignored | ⟨hne, hlt, ⟨hle, hr⟩ | ⟨hgt, f, hf, hr⟩⟩
  · exact .inl hignored
  · exact .inr ⟨hne, hlt, n, hr, rfl, rfl, (max_eq_left hle).symm, .inl rfl⟩
  · obtain ⟨deadline, rng, rfl⟩ := stepDown_ok hf
    exact .inr ⟨hne, hlt, _, hr, rfl, rfl, (max_eq_right hgt.le).symm, .inr ⟨hgt, rfl⟩⟩

/-! ## Start and delivery -/

/-- The node that starts on the storage `d`. -/
def fresh (cfg : Config) (d : Disk) (deadline : Nat) (rng : UInt64) : Node Disk where
  cfg := cfg
  storage := d
  term := d.current.term
  votedFor := d.current.votedFor
  log := d.current.log
  role := .follower
  leaderId := none
  commitIndex := 0
  appliedIndex := 0
  votes := List.replicate cfg.clusterSize false
  nextIndex := List.replicate cfg.clusterSize 1
  matchIndex := List.replicate cfg.clusterSize 0
  electionDeadline := deadline
  heartbeatDeadline := 0
  rng := rng

theorem new_ok {cfg : Config} {d : Disk} (h : new cfg d now = .ok n) :
    cfg.id < cfg.clusterSize ∧ ∃ deadline rng, n = fresh cfg d deadline rng := by
  simp only [new, load_disk, ok_bind] at h
  obtain ⟨_, hid, h⟩ := bind_eq_ok.mp h
  obtain ⟨_, _, h⟩ := bind_eq_ok.mp h
  obtain ⟨deadline, rng, rfl⟩ := resetElectionTimer_ok h
  exact ⟨assert_eq_ok.mp hid, deadline, rng, rfl⟩

theorem new_timeout {cfg : Config} {d : Disk} (h : new cfg d now = .ok n) :
    0 < cfg.electionTimeout.1 ∧ cfg.electionTimeout.1 ≤ cfg.electionTimeout.2 := by
  obtain ⟨_, _, h⟩ := bind_eq_ok.mp h
  obtain ⟨_, htimeout, _⟩ := bind_eq_ok.mp h
  exact assert_eq_ok.mp htimeout

theorem takeCommitted_ok {batch : List (Nat × Entry)} (h : n.takeCommitted = .ok (n', batch)) :
    n' = { n with appliedIndex := n.commitIndex } ∧
      batch.length = n.commitIndex - n.appliedIndex ∧
      ∀ k p, batch[k]? = some p →
        p.1 = n.appliedIndex + k + 1 ∧ n.log[n.appliedIndex + k]? = some p.2 := by
  obtain ⟨start, hstart, h⟩ := bind_eq_ok.mp h
  obtain ⟨_, rfl⟩ := add_eq_ok.mp hstart
  obtain ⟨out', hout, h⟩ := bind_eq_ok.mp h
  cases h
  have hall := mapM_eq_ok hout
  have hlen := hall.length_eq
  rw [List.length_range'] at hlen
  refine ⟨rfl, by omega, fun k p hp => ?_⟩
  obtain ⟨hk, rfl⟩ := List.getElem?_eq_some_iff.mp hp
  have hget := hall.get (i := k) (by rw [hall.length_eq]; exact hk) hk
  simp only [List.get_eq_getElem, List.getElem_range', Nat.one_mul] at hget
  obtain ⟨e, he, hget⟩ := bind_eq_ok.mp hget
  rw [get_eq_ok] at he
  rw [← pure_eq_ok.mp hget]
  refine ⟨by omega, ?_⟩
  rw [← he]
  congr 1
  omega

/-- Delivery reads the log up to the commit index only. -/
theorem takeCommitted_inBounds (h : n.commitIndex ≤ n.log.length) :
    n.takeCommitted ≠ .error .outOfRange := by
  intro herr
  rcases bind_eq_error.mp herr with hadd | ⟨start, hstart, herr⟩
  · unfold add at hadd
    split at hadd <;> cases hadd
  obtain ⟨_, rfl⟩ := add_eq_ok.mp hstart
  have hall : ∀ k ∈ List.range' (n.appliedIndex + 1) (n.commitIndex + 1 - (n.appliedIndex + 1)),
      (do let e ← get n.log (k - 1); pure (k, e) : Checked (Nat × Entry)).Returns := by
    intro k hk
    rw [List.mem_range'_1] at hk
    exact Returns.bind_pure_iff.mpr (.get (by omega))
  obtain ⟨out', hout⟩ := Returns.mapM_iff.mpr hall
  rw [hout] at herr
  cases herr

end Node

end Landsraad
