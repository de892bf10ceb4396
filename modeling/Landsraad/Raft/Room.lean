import Landsraad.Raft.Exchange
import Landsraad.Raft.Robustness
import Landsraad.Raft.Widths

/-!
# Room for the answers

Some `K` bounds the logs of the live nodes and the indices that the messages in flight name, and
a full batch that follows `K` still ends at a word. Then every node can handle every message that
was sent to it, and the answers are within `K` again.
-/

namespace Landsraad

open ReplicatedLog ReplicatedLog.Ledger Checked

/-- The log of a receiver that takes what the message names ends at `K` at the latest. -/
def Message.Within (K : Nat) : Message → Prop
  | .appendEntries _ prevIndex _ entries _ => prevIndex + entries.length ≤ K
  | .appendResponse _ _ matchIndex => matchIndex ≤ K
  | _ => True

instance (K : Nat) : DecidablePred (Message.Within K)
  | .appendEntries .. => inferInstanceAs (Decidable (_ ≤ K))
  | .appendResponse .. => inferInstanceAs (Decidable (_ ≤ K))
  | .requestVote .. | .voteResponse .. => .isTrue trivial

/-- The log ends at `K` at the latest, also after an election that is still open. -/
structure Node.Short (K : Nat) (n : Node Disk) : Prop where
  log : n.log.length ≤ K
  candidate : n.role = .candidate → n.log.length < K

instance (K : Nat) : DecidablePred (Node.Short K) := fun n =>
  decidable_of_iff (n.log.length ≤ K ∧ (n.role = .candidate → n.log.length < K))
    ⟨fun ⟨hl, hc⟩ => ⟨hl, hc⟩, fun h => ⟨h.1, h.2⟩⟩

/-- And so far from the largest word that a full batch fits behind it. -/
structure Node.Roomy (K : Nat) (n : Node Disk) : Prop extends Node.Short K n where
  batch : K + n.cfg.maxBatch < wordSize

instance (K : Nat) : DecidablePred (Node.Roomy K) := fun n =>
  decidable_of_iff (n.Short K ∧ K + n.cfg.maxBatch < wordSize)
    ⟨fun ⟨hs, hb⟩ => ⟨hs, hb⟩, fun h => ⟨h.1, h.2⟩⟩

/-- Every batch that the call makes the node cut would end within a word at its full size. -/
def Node.BatchesFit (n : Node Disk) (c : Call) : Prop :=
  ∀ prev, n.Cuts prev c → prev + n.cfg.maxBatch < wordSize

structure Exchange.Short (K : Nat) (x : Exchange) : Prop where
  nodes : ∀ i n, x.system.node i = some n → n.Short K
  flight : ∀ e ∈ x.inFlight, e.message.Within K

structure Exchange.Roomy (K : Nat) (x : Exchange) : Prop where
  nodes : ∀ i n, x.system.node i = some n → n.Roomy K
  flight : ∀ e ∈ x.inFlight, e.message.Within K

theorem Exchange.Roomy.short {K : Nat} {x : Exchange} (h : x.Roomy K) : x.Short K :=
  ⟨fun i n hn => (h.nodes i n hn).toShort, h.flight⟩

theorem Message.Within.mono {K K' : Nat} {msg : Message} (h : msg.Within K) (hle : K ≤ K') :
    msg.Within K' := by
  cases msg with
  | requestVote term lastLogIndex lastLogTerm => trivial
  | voteResponse term granted => trivial
  | appendEntries term prevIndex prevTerm entries leaderCommit => exact Nat.le_trans h hle
  | appendResponse term success matchIndex => exact Nat.le_trans h hle

theorem Node.Roomy.mono {K K' : Nat} {n : Node Disk} (h : n.Roomy K) (hle : K ≤ K')
    (hbatch : K' + n.cfg.maxBatch < wordSize) : n.Roomy K' where
  log := h.log.trans hle
  candidate hc := (h.candidate hc).trans_le hle
  batch := hbatch

section

variable {size i j now K : Nat} {acts : List Action} {s : System} {n n' : Node Disk} {msg : Message}
  {out : List Outgoing}

/-! ## What handling keeps -/

namespace Node

theorem mergeEntries_length_le {prevIndex : Nat} {entries : List Entry}
    (hprev : prevIndex ≤ n.log.length) (h : n.mergeEntries prevIndex 0 entries = .ok n') :
    n'.log.length ≤ max n.log.length (prevIndex + entries.length) := by
  rcases mergeEntries_ok (k := 0) hprev h with ⟨rfl, _⟩ | ⟨k, e, he, _, hk, _, rfl⟩
  · exact le_max_left _ _
  · have hlt := (List.getElem?_eq_some_iff.mp he).1
    unfold spliced
    split
    · simp only [extended, truncated, List.length_append, List.length_take, List.length_drop]
      omega
    · simp only [extended, List.length_append, List.length_drop]
      omega

theorem receive_log_le {f : Node Disk} {sender : Nat} (hlog : f.log.length ≤ K)
    (hcand : f.role = .candidate → f.log.length < K) (hmsg : msg.Within K)
    (h : f.receive now sender msg = .ok (n', out)) : n'.log.length ≤ K := by
  cases msg with
  | requestVote term lastLogIndex lastLogTerm =>
    rcases onRequestVote_ok h with ⟨rfl, _⟩ | ⟨_, _, _, _, deadline, rng, rfl⟩ <;> exact hlog
  | voteResponse term granted =>
    rcases onVoteResponse_ok h with ⟨rfl, _⟩ | ⟨hrole, _, _, _, ⟨_, hl⟩ | ⟨rfl, _⟩⟩
    · exact hlog
    · obtain ⟨c, deadline, rfl, _⟩ := becomeLeader_ok hl
      have hlt := hcand hrole
      simp only [inaugurated, List.length_append, List.length_singleton]
      omega
    · exact hlog
  | appendEntries term prevIndex prevTerm entries leaderCommit =>
    rcases onAppendEntries_ok h with ⟨_, rfl, _⟩ | ⟨_, _, deadline, rng, hcase⟩
    · exact hlog
    rcases hcase with ⟨_, rfl, _⟩ | ⟨hprev, _, m, hm, rfl, _⟩
    · exact hlog
    · rw [committing_log]
      exact (mergeEntries_length_le hprev hm).trans (max_le hlog hmsg)
  | appendResponse term success matchIndex =>
    rcases onAppendResponse_ok h with ⟨_, rfl, _⟩ | ⟨_, _, known, _, hcase⟩
    · exact hlog
    rcases hcase with ⟨_, hcommit, _⟩ | ⟨_, next, o, _, rfl, _⟩
    · obtain ⟨c, rfl, _⟩ := advanceCommit_ok hcommit
      exact hlog
    · exact hlog

theorem handle_short {sender : Nat} (hp : n.Persisted) (h : n.Short K) (hmsg : msg.Within K)
    (hh : n.handle now sender msg = .ok (n', out)) :
    n'.Short K ∧ ∀ o ∈ out, o.message.Within K := by
  obtain ⟨_, hans⟩ := handle_answered hh
  have hacc := handle_accounted hp hh
  rcases handle_receives hh with ⟨_, rfl, rfl⟩ | ⟨_, _, f, hr, hflog, _, _, hf⟩
  · exact ⟨h, by simp⟩
  have hlog : n'.log.length ≤ K := by
    refine receive_log_le (hflog ▸ h.log) (fun hc => ?_) hmsg hr
    rcases hf with rfl | ⟨_, hrole⟩
    · exact h.candidate hc
    · rw [hrole] at hc
      cases hc
  refine ⟨⟨hlog, fun hc => ?_⟩, fun o ho => ?_⟩
  · obtain ⟨hcand, _, hsame⟩ := hans.candidate hc
    rw [hsame]
    exact h.candidate hcand
  · obtain ⟨_, hbody⟩ := hacc.justified o ho
    rw [hacc.persisted] at hbody
    cases hm : o.message with
    | requestVote t lastLogIndex lastLogTerm => trivial
    | voteResponse t granted => trivial
    | appendEntries t prevIndex prevTerm entries leaderCommit =>
      rw [hm] at hbody
      exact hbody.end_le.trans hlog
    | appendResponse t success matchIndex =>
      rw [hm] at hbody
      cases success with
      | true => exact (hbody rfl).trans hlog
      | false =>
        have hhint := receive_hints hr o ho
        rw [hm] at hhint
        exact Nat.le_trans hhint hlog

theorem tick_short (hrole : n.role = .leader) (h : n.Short K)
    (ht : n.tick now = .ok (n', out)) : n'.Short K ∧ ∀ o ∈ out, o.message.Within K := by
  rcases tick_leads hrole ht with ⟨_, rfl, rfl⟩ | ⟨_, rfl, hout⟩
  · exact ⟨h, by simp⟩
  refine ⟨⟨h.log, h.candidate⟩, fun o ho => ?_⟩
  obtain ⟨_, prevIndex, prevTerm, entries, hslice, hm⟩ := broadcastAppend_ok hout o ho
  rw [hm]
  exact hslice.end_le.trans h.log

/-- A proposal makes the log one entry longer at most. -/
theorem propose_roomy {command : List UInt8} {answer : Option Nat} (h : n.Roomy K)
    (hbatch : K + 1 + n.cfg.maxBatch < wordSize)
    (hp : n.call (.propose now command) = .ok (n', out, answer)) :
    n'.Roomy (K + 1) ∧ ∀ o ∈ out, o.message.Within (K + 1) := by
  obtain ⟨r, hpropose, rfl, _⟩ := call_propose_ok hp
  rcases propose_ok hpropose with ⟨_, rfl, rfl⟩ | ⟨hrole, c, out, rfl, _, rfl, hout, _⟩
  · exact ⟨h.mono (Nat.le_succ K) hbatch, fun _ ho => by cases ho⟩
  have hlog : (n.appended ⟨n.term, command⟩).log.length ≤ K + 1 := by
    have hold := h.log
    simp only [appended, List.length_append, List.length_singleton]
    omega
  refine ⟨⟨⟨hlog, fun hc => ?_⟩, hbatch⟩, fun o ho => ?_⟩
  · cases hrole.symm.trans hc
  · obtain ⟨_, prevIndex, prevTerm, entries, hslice, hm⟩ := broadcastAppend_ok hout o ho
    rw [hm]
    exact hslice.end_le.trans hlog

end Node

/-! ## What can be handled -/

theorem run_ranged (h : System.initial.run size acts = some s) :
    ∀ i n, s.node i = some n → n.Ranged := by
  refine run_node_induction (fun cfg d now n hnew => ?_)
    (fun a i n c n' out answer _ _ hn hcall => (Node.call_booked hn hcall).ranged)
    (fun n hn => ⟨hn.next_length, hn.match_length, hn.leader⟩) h
  obtain ⟨_, deadline, rng, rfl⟩ := Node.new_ok hnew
  exact Node.fresh_ranged cfg d deadline rng

theorem run_formed (h : System.initial.run size acts = some s) (hi : s.node i = some n) :
    n.Formed := by
  obtain ⟨a, hsim, _⟩ := run_simulates (.initial size) h
  have hnode := hsim.node hi
  have htimeout : ∀ i n, s.node i = some n →
      0 < n.cfg.electionTimeout.1 ∧ n.cfg.electionTimeout.1 ≤ n.cfg.electionTimeout.2 := by
    refine run_node_induction (fun cfg d now n hnew => ?_)
      (fun a i n c n' out answer _ _ hn hcall => ?_) (fun n hn => hn) h
    · have hchecked := Node.new_timeout hnew
      obtain ⟨_, deadline, rng, rfl⟩ := Node.new_ok hnew
      exact hchecked
    · rw [(Node.call_timed hcall).cfg]
      exact hn
  refine ⟨run_ranged h i n hi, ?_, htimeout i n hi, ?_⟩
  · rw [hnode.id, hnode.clusterSize]
    exact hnode.lt_size
  · rw [hnode.votes_length, hnode.clusterSize]

theorem Node.ReplyCuts.prev_le {sender prev : Nat} (h : n.ReplyCuts sender prev msg)
    (hn : n.Ranged) : prev ≤ n.log.length := by
  cases msg with
  | requestVote term lastLogIndex lastLogTerm => cases h
  | voteResponse term granted => exact h.2.2.2.2.le
  | appendEntries term prevIndex prevTerm entries leaderCommit => cases h
  | appendResponse term success matchIndex =>
    obtain ⟨hrole, _, known, next, hknown, hnext, hprev⟩ := h
    obtain ⟨hlow, hhigh⟩ := hn.leader hrole sender known next hknown hnext
    unfold lastIndex at hhigh hprev
    split at hprev <;> omega

/-- A message that was sent is handled, at any time that leaves room for the timers, exactly if the
batches that answer it fit. -/
theorem handle_sent_returns (hrun : System.initial.run size acts = some s) (hi : s.node i = some n)
    (hshort : n.Short K) (hword : K + 1 < wordSize) (hsent : ⟨j, i, msg⟩ ∈ s.sent)
    (hmsg : msg.Within K) (hnow : n.ClockFits now) :
    (n.handle now j msg).Returns ↔ n.BatchesFit (.handle now j msg) := by
  obtain ⟨a, hsim, _⟩ := run_simulates (.initial size) hrun
  have hformed := run_formed hrun hi
  have hlog := hshort.log
  have hcommit := (hsim.node hi).commit.le_length
  by_cases hp : j ∈ n.peers
  swap
  · rw [Node.handle_eq, if_neg hp]
    exact iff_of_true (.pure _) fun _ hcut => absurd hcut.1 hp
  have hfitting : n.Fitting msg := by
    cases msg with
    | appendEntries term prevIndex prevTerm entries leaderCommit =>
      have hend : prevIndex + entries.length ≤ K := hmsg
      refine ⟨fun _ => by omega, ?_⟩
      rintro rfl
      exact not_leader_of_sent hsim hi hsent (Node.mem_peers.mp hp).2
    | requestVote term lastLogIndex lastLogTerm => trivial
    | voteResponse term granted => trivial
    | appendResponse term success matchIndex => trivial
  have hhint : n.HintFits j msg := by
    cases msg with
    | appendResponse term success matchIndex =>
      have hend : matchIndex ≤ K := hmsg
      intro _ _ _ _
      omega
    | requestVote term lastLogIndex lastLogTerm => trivial
    | voteResponse term granted => trivial
    | appendEntries term prevIndex prevTerm entries leaderCommit => trivial
  exact (Node.handle_returns hformed (by omega) (by omega) hnow hfitting).trans
    (and_iff_left hhint)

/-- So is the heartbeat of a leader sent. -/
theorem tick_leader_returns (hrun : System.initial.run size acts = some s)
    (hi : s.node i = some n) (hrole : n.role = .leader) (hnow : n.ClockFits now) :
    (n.tick now).Returns ↔ n.BatchesFit (.tick now) :=
  Node.tick_leader_returns (run_formed hrun hi) hrole hnow

theorem pending_fits (hrun : System.initial.run size acts = some s) (hi : s.node i = some n)
    (hrole : n.role = .leader) (hroom : n.Roomy K) {prev : Nat} (hprev : n.Pending prev) :
    prev + n.cfg.maxBatch < wordSize := by
  obtain ⟨p, hp, hnext⟩ := hprev
  obtain ⟨m, x, hm, hx, _, hhigh⟩ := (run_formed hrun hi).ranged.peer hrole hp
  rw [hnext] at hx
  cases hx
  have hlog := hroom.log
  have hfull := hroom.batch
  unfold Node.lastIndex at hhigh
  omega

/-- Where there is room for a full batch, every batch fits. -/
theorem batches_fit (hrun : System.initial.run size acts = some s) (hi : s.node i = some n)
    (hroom : n.Roomy K) (c : Call) : n.BatchesFit c := by
  intro prev hcut
  cases c with
  | tick now => exact pending_fits hrun hi hcut.1 hroom hcut.2.2
  | propose now command => exact pending_fits hrun hi hcut.1 hroom hcut.2
  | handle now sender msg =>
    have hprev := hcut.2.prev_le (run_formed hrun hi).ranged
    have hlog := hroom.log
    have hfull := hroom.batch
    omega

/-- So is a proposal accepted. -/
theorem propose_roomy_returns {command : List UInt8} (hrun : System.initial.run size acts = some s)
    (hi : s.node i = some n) (hbatch : 1 ≤ n.cfg.maxBatch) (hroom : n.Roomy K) :
    (n.propose now command).Returns := by
  obtain ⟨a, hsim, _⟩ := run_simulates (.initial size) hrun
  have hcommit := (hsim.node hi).commit.le_length
  have hlog := hroom.log
  have hfull := hroom.batch
  exact (Node.propose_returns (run_formed hrun hi) (by omega)).mpr
    (batches_fit hrun hi hroom (.propose now command))

end

end Landsraad
