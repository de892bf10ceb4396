import Landsraad.Raft.Merge
import Landsraad.Raft.System

/-!
# Timers

What a call does to the two deadlines of a node. A follower of a term stands for no election
before a given tick, unless it comes to know of a later term; a leader broadcasts whenever its
heartbeat is due. The value that the random generator yields is arbitrary here.
-/

namespace Landsraad

open Checked

/-- The message is an AppendEntries of the term. -/
def Message.Appends (term : Nat) : Message → Prop
  | .appendEntries t _ _ _ _ => t = term
  | _ => False

instance Message.instDecidableAppends (term : Nat) (m : Message) : Decidable (m.Appends term) := by
  cases m <;> unfold Appends <;> infer_instance

theorem Message.Appends.term_eq {m : Message} {term : Nat} (h : m.Appends term) :
    m.term = term := by
  cases m with
  | appendEntries => exact h
  | _ => cases h

/-- The tick that a call is given. -/
def Call.now : Call → Nat
  | .tick now => now
  | .propose now _ => now
  | .handle now _ _ => now

/-- The call is no timer and brings no message beyond the term. -/
def Call.Within (term : Nat) : Call → Prop
  | .tick _ => False
  | .propose _ _ => True
  | .handle _ _ msg => msg.term ≤ term

namespace Node

variable {n n' : Node Disk} {now : Nat} {out : List Outgoing}

/-- The election deadline stays, or is at least the shortest timeout away. -/
def Rearmed (now : Nat) (n n' : Node Disk) : Prop :=
  n'.electionDeadline = n.electionDeadline ∨
    now + n.cfg.electionTimeout.1 ≤ n'.electionDeadline

/-- A call at `now` leads from `n` to `n'` and returns `out`: a follower stays a follower of its
term, or moves on to a later term, and a leader has its heartbeat due as before the call or an
interval from now. -/
structure Timed (now : Nat) (n n' : Node Disk) (out : List Outgoing) : Prop where
  cfg : n'.cfg = n.cfg
  sends : ∀ o ∈ out, o.message.term = n'.term
  reign : n.term < n'.term ∨
    (n'.term = n.term ∧ Rearmed now n n' ∧ (n.role = .follower → n'.role = .follower))
  heartbeat : n'.role = .leader →
    (n.role = .leader ∧ n'.heartbeatDeadline = n.heartbeatDeadline) ∨
      n'.heartbeatDeadline = now + n.cfg.heartbeatInterval

theorem Timed.term_le (h : Timed now n n' out) : n.term ≤ n'.term := by
  rcases h.reign with hlt | ⟨heq, _⟩
  · exact hlt.le
  · exact heq.ge

theorem Timed.same (hout : ∀ o ∈ out, o.message.term = n.term) : Timed now n n out :=
  ⟨rfl, hout, .inr ⟨rfl, .inl rfl, id⟩, fun hl => .inl ⟨hl, rfl⟩⟩

/-- What happened to a node that had just stepped down is what happened to it. -/
theorem Timed.of_later {f : Node Disk} (h : Timed now f n' out) (hlt : n.term < f.term)
    (hcfg : f.cfg = n.cfg) (hrole : f.role = .follower) : Timed now n n' out where
  cfg := h.cfg.trans hcfg
  sends := h.sends
  reign := .inl (hlt.trans_le h.term_le)
  heartbeat hl := by
    rcases h.heartbeat hl with ⟨hleads, _⟩ | hdue
    · rw [hrole] at hleads
      cases hleads
    · rw [hcfg] at hdue
      exact .inr hdue

theorem appendFor_appends {p : Nat} {o : Outgoing} (h : n.appendFor p = .ok o) :
    o.recipient = p ∧ o.message.Appends n.term := by
  obtain ⟨prevIndex, prevTerm, entries, _, rfl, _⟩ := appendFor_ok h
  exact ⟨rfl, rfl⟩

theorem appendFor_term {p : Nat} {o : Outgoing} (h : n.appendFor p = .ok o) :
    o.message.term = n.term := (appendFor_appends h).2.term_eq

theorem broadcastAppend_term (h : n.broadcastAppend = .ok out) :
    ∀ o ∈ out, o.message.term = n.term :=
  fun _ ho => appendFor_term (broadcastAppend_sends h ho).2

/-! ## The deadlines that the methods set -/

theorem resetElectionTimer_late (h : n.resetElectionTimer now = .ok n') :
    now + n.cfg.electionTimeout.1 ≤ n'.electionDeadline := by
  simp only [resetElectionTimer, nextRand, bind_eq_ok, pure_eq_ok, add_eq_ok] at h
  obtain ⟨_, _, _, _, _, ⟨_, rfl⟩, _, ⟨_, rfl⟩, rfl⟩ := h
  exact Nat.le_add_right _ _

theorem becomeLeader_due (h : n.becomeLeader now = .ok (n', out)) :
    n'.heartbeatDeadline = now + n.cfg.heartbeatInterval := by
  simp only [becomeLeader, append_disk, ok_bind, bind_eq_ok, add_eq_ok, pure_eq_ok] at h
  obtain ⟨_, _, n₁, hcommit, _, ⟨_, rfl⟩, out', _, h⟩ := h
  obtain ⟨c, rfl, _⟩ := advanceCommit_ok hcommit
  obtain ⟨rfl, _⟩ := Prod.mk.inj h
  rfl

theorem onRequestVote_rearmed {sender term lastLogIndex lastLogTerm : Nat}
    (h : n.onRequestVote now sender term lastLogIndex lastLogTerm = .ok (n', out)) :
    Rearmed now n n' := by
  unfold onRequestVote at h
  dsimp only at h
  split at h
  · obtain ⟨t, _, h⟩ := bind_eq_ok.mp h
    split at h
    · simp only [persistHardState, saveHardState_disk, ok_bind, bind_eq_ok, pure_eq_ok] at h
      obtain ⟨_, rfl, n₁, hreset, h⟩ := h
      cases h
      have hlate := resetElectionTimer_late hreset
      exact .inr hlate
    · cases h
      exact .inl rfl
  · cases h
    exact .inl rfl

theorem mergeEntries_election {prevIndex : Nat} {entries : List Entry}
    (hle : prevIndex ≤ n.log.length) (h : n.mergeEntries prevIndex 0 entries = .ok n') :
    n'.electionDeadline = n.electionDeadline := by
  rcases mergeEntries_ok hle h with ⟨rfl, _⟩ | ⟨j, e, _, _, _, _, rfl⟩
  · rfl
  · unfold spliced
    split <;> rfl

/-- An AppendEntries that is not stale sets the timer again, accepted or not. -/
theorem onAppendEntries_late {sender term prevIndex prevTerm leaderCommit : Nat}
    {entries : List Entry} (hterm : n.term ≤ term)
    (h : n.onAppendEntries now sender term prevIndex prevTerm entries leaderCommit =
      .ok (n', out)) : now + n.cfg.electionTimeout.1 ≤ n'.electionDeadline := by
  unfold onAppendEntries at h
  dsimp only at h
  rw [if_neg (Nat.not_lt.mpr hterm)] at h
  obtain ⟨_, _, h⟩ := bind_eq_ok.mp h
  obtain ⟨f, hreset, h⟩ := bind_eq_ok.mp h
  have hf := resetElectionTimer_late hreset
  have hlate : now + n.cfg.electionTimeout.1 ≤ f.electionDeadline := hf
  split at h
  · cases h
    exact hlate
  · next hle =>
    obtain ⟨t, _, h⟩ := bind_eq_ok.mp h
    split at h
    · cases h
      exact hlate
    · obtain ⟨m, hmerge, h⟩ := bind_eq_ok.mp h
      obtain ⟨matched, _, h⟩ := bind_eq_ok.mp h
      cases h
      rw [← mergeEntries_election (Nat.le_of_not_lt hle) hmerge] at hlate
      split <;> exact hlate

/-! ## Calls -/

theorem becomeLeader_timed (hrole : n.role = .candidate)
    (h : n.becomeLeader now = .ok (n', out)) : Timed now n n' out := by
  have hdue := becomeLeader_due h
  obtain ⟨c, deadline, rfl, _, hout, _⟩ := becomeLeader_ok h
  exact ⟨rfl, broadcastAppend_term hout, .inr ⟨rfl, .inl rfl, by simp [hrole]⟩, fun _ => .inr hdue⟩

theorem startElection_timed (h : n.startElection now = .ok (n', out)) :
    Timed now n n' out ∧ n.term < n'.term := by
  obtain ⟨deadline, rng, _, hcase⟩ := startElection_ok h
  have hlater : n.term < (n.standing deadline rng).term := Nat.lt_succ_self n.term
  rcases hcase with ⟨_, hl⟩ | ⟨rfl, t, _, rfl⟩
  · have ht := becomeLeader_timed rfl hl
    have hlt : n.term < n'.term := hlater.trans_le ht.term_le
    have hdue := becomeLeader_due hl
    exact ⟨⟨ht.cfg, ht.sends, .inl hlt, fun _ => .inr hdue⟩, hlt⟩
  · refine ⟨⟨rfl, ?_, .inl hlater, fun hl => nomatch hl⟩, hlater⟩
    intro o ho
    obtain ⟨p, _, rfl⟩ := List.mem_map.mp ho
    rfl

/-- A leader broadcasts exactly when its heartbeat is due. -/
theorem tick_leads (hrole : n.role = .leader) (h : n.tick now = .ok (n', out)) :
    (now < n.heartbeatDeadline ∧ n' = n ∧ out = []) ∨
      (n.heartbeatDeadline ≤ now ∧
        n' = { n with heartbeatDeadline := now + n.cfg.heartbeatInterval } ∧
        n'.broadcastAppend = .ok out) := by
  unfold tick at h
  split at h
  · split at h
    · next hdue =>
      obtain ⟨deadline, hadd, h⟩ := bind_eq_ok.mp h
      obtain ⟨_, rfl⟩ := add_eq_ok.mp hadd
      obtain ⟨out', hout, h⟩ := bind_eq_ok.mp h
      cases h
      exact .inr ⟨hdue, rfl, hout⟩
    · next hdue =>
      cases h
      exact .inl ⟨Nat.lt_of_not_le hdue, rfl, rfl⟩
  · next hno => exact absurd hrole hno

/-- Before its election deadline a follower does nothing when it is ticked. -/
theorem tick_waits (hrole : n.role = .follower) (hdue : now < n.electionDeadline)
    (h : n.tick now = .ok (n', out)) : n' = n ∧ out = [] := by
  unfold tick at h
  split at h
  · next hleads =>
    rw [hrole] at hleads
    cases hleads
  · rw [if_neg (Nat.not_le.mpr hdue)] at h
    cases h
    exact ⟨rfl, rfl⟩

theorem tick_timed (h : n.tick now = .ok (n', out)) : Timed now n n' out := by
  by_cases hrole : n.role = .leader
  · rcases tick_leads hrole h with ⟨_, rfl, rfl⟩ | ⟨_, rfl, hout⟩
    · exact .same (by simp)
    · exact ⟨rfl, broadcastAppend_term hout, .inr ⟨rfl, .inl rfl, id⟩, fun _ => .inr rfl⟩
  · rcases tick_ok h with ⟨rfl, rfl⟩ | ⟨hl, _⟩ | ⟨_, hs⟩
    · exact .same (by simp)
    · exact absurd hl hrole
    · exact (startElection_timed hs).1

theorem propose_timed {command : List UInt8} {answer : Except ProposeError (Nat × List Outgoing)}
    (h : n.propose now command = .ok (n', answer)) :
    Timed now n n' ((answer.toOption.map Prod.snd).getD []) := by
  rcases propose_ok h with ⟨_, rfl, rfl⟩ | ⟨_, c, out, rfl, _, rfl, hout, _⟩
  · exact .same (by simp [Except.toOption])
  · exact ⟨rfl, broadcastAppend_term hout, .inr ⟨rfl, .inl rfl, id⟩, fun hl => .inl ⟨hl, rfl⟩⟩

theorem onAppendEntries_follows {sender term prevIndex prevTerm leaderCommit : Nat}
    {entries : List Entry} (hterm : n.term ≤ term)
    (h : n.onAppendEntries now sender term prevIndex prevTerm entries leaderCommit =
      .ok (n', out)) : n'.cfg = n.cfg ∧ n'.term = n.term ∧ n'.role = .follower := by
  rcases onAppendEntries_ok h with ⟨hlt, _⟩ | ⟨_, _, deadline, rng, hcase⟩
  · exact absurd hlt (Nat.not_lt.mpr hterm)
  rcases hcase with ⟨_, rfl, _⟩ | ⟨hprev, _, m, hm, rfl, _⟩
  · exact ⟨rfl, rfl, rfl⟩
  · obtain ⟨hrole, ht⟩ := mergeEntries_frame hprev hm
    have hcfg := mergeEntries_cfg hprev hm
    exact ⟨committing_cfg.trans hcfg, committing_term.trans ht, committing_role.trans hrole⟩

theorem onAppendEntries_timed {sender term prevIndex prevTerm leaderCommit : Nat}
    {entries : List Entry}
    (h : n.onAppendEntries now sender term prevIndex prevTerm entries leaderCommit =
      .ok (n', out)) : Timed now n n' out := by
  rcases onAppendEntries_ok h with ⟨_, rfl, rfl⟩ | ⟨hle, _, deadline, rng, hcase⟩
  · exact .same (by simp [Message.term])
  obtain ⟨hcfg, hterm, hrole⟩ := onAppendEntries_follows hle h
  refine ⟨hcfg, ?_, .inr ⟨hterm, .inr (onAppendEntries_late hle h), fun _ => hrole⟩, fun hl => ?_⟩
  · rcases hcase with ⟨_, rfl, rfl⟩ | ⟨_, _, m, _, rfl, rfl⟩ <;> simp [Message.term]
  · rw [hrole] at hl
    cases hl

theorem receive_term {sender : Nat} {msg : Message}
    (h : n.receive now sender msg = .ok (n', out)) : n'.term = n.term := by
  cases msg with
  | requestVote term lastLogIndex lastLogTerm =>
    rcases onRequestVote_ok h with ⟨rfl, rfl⟩ | ⟨_, _, _, _, deadline, rng, rfl⟩ <;> rfl
  | voteResponse term granted =>
    rcases onVoteResponse_ok h with ⟨rfl, _⟩ | ⟨_, _, _, _, ⟨_, hl⟩ | ⟨rfl, _⟩⟩
    · rfl
    · obtain ⟨c, deadline, rfl, _⟩ := becomeLeader_ok hl
      rfl
    · rfl
  | appendEntries term prevIndex prevTerm entries leaderCommit =>
    rcases onAppendEntries_ok h with ⟨_, rfl, _⟩ | ⟨hle, _⟩
    · rfl
    · exact (onAppendEntries_follows hle h).2.1
  | appendResponse term success matchIndex =>
    rcases onAppendResponse_ok h with ⟨_, rfl, _⟩ | ⟨_, _, known, _, hcase⟩
    · rfl
    rcases hcase with ⟨_, hcommit, _⟩ | ⟨_, next, o, _, rfl, _⟩
    · obtain ⟨c, rfl, _⟩ := advanceCommit_ok hcommit
      rfl
    · rfl

theorem receive_timed {sender : Nat} {msg : Message}
    (h : n.receive now sender msg = .ok (n', out)) : Timed now n n' out := by
  cases msg with
  | requestVote term lastLogIndex lastLogTerm =>
    have hrearmed := onRequestVote_rearmed h
    rcases onRequestVote_ok h with ⟨rfl, rfl⟩ | ⟨_, _, _, rfl, deadline, rng, rfl⟩
    · exact .same (by simp [Message.term])
    · exact ⟨rfl, by simp [Message.term], .inr ⟨rfl, hrearmed, id⟩, fun hl => .inl ⟨hl, rfl⟩⟩
  | voteResponse term granted =>
    rcases onVoteResponse_ok h with ⟨rfl, rfl⟩ | ⟨hrole, _, _, _, ⟨_, hl⟩ | ⟨rfl, rfl⟩⟩
    · exact .same (by simp)
    · have ht := becomeLeader_timed (by exact hrole) hl
      exact ⟨ht.cfg, ht.sends, ht.reign, ht.heartbeat⟩
    · exact ⟨rfl, by simp, .inr ⟨rfl, .inl rfl, id⟩, fun hl => .inl ⟨hl, rfl⟩⟩
  | appendEntries term prevIndex prevTerm entries leaderCommit => exact onAppendEntries_timed h
  | appendResponse term success matchIndex =>
    rcases onAppendResponse_ok h with ⟨_, rfl, rfl⟩ | ⟨_, _, known, _, hcase⟩
    · exact .same (by simp)
    rcases hcase with ⟨_, hcommit, hout⟩ | ⟨_, next, o, _, rfl, ho, rfl⟩
    · obtain ⟨c, rfl, _⟩ := advanceCommit_ok hcommit
      refine ⟨rfl, ?_, .inr ⟨rfl, .inl rfl, id⟩, fun hl => .inl ⟨hl, rfl⟩⟩
      rcases hout with ⟨_, rfl⟩ | ⟨_, o, ho, rfl⟩
      · simp
      · simpa using appendFor_term ho
    · refine ⟨rfl, ?_, .inr ⟨rfl, .inl rfl, id⟩, fun hl => .inl ⟨hl, rfl⟩⟩
      simpa using appendFor_term ho

theorem handle_timed {sender : Nat} {msg : Message}
    (h : n.handle now sender msg = .ok (n', out)) : Timed now n n' out := by
  rcases handle_ok h with ⟨_, rfl, rfl⟩ | ⟨_, _, ⟨_, hr⟩ | ⟨hgt, f, hf, hr⟩⟩
  · exact .same (by simp)
  · exact receive_timed hr
  · have ht := receive_timed hr
    obtain ⟨deadline, rng, rfl⟩ := stepDown_ok hf
    exact ht.of_later hgt rfl rfl

theorem call_timed {c : Call} {answer : Option Nat} (h : n.call c = .ok (n', out, answer)) :
    Timed c.now n n' out := by
  cases c with
  | tick now =>
    obtain ⟨ht, rfl⟩ := call_tick_ok h
    exact tick_timed ht
  | propose now command =>
    obtain ⟨r, hp, rfl, _⟩ := call_propose_ok h
    exact propose_timed hp
  | handle now sender msg =>
    obtain ⟨hh, rfl⟩ := call_handle_ok h
    exact handle_timed hh

/-- A message moves a node to its own term at most. -/
theorem handle_term_le {sender : Nat} {msg : Message}
    (h : n.handle now sender msg = .ok (n', out)) : n'.term ≤ max n.term msg.term := by
  rcases handle_receives h with ⟨_, rfl, _⟩ | ⟨_, _, f, hr, _, _, hterm, _⟩
  · exact le_max_left _ _
  · rw [← hterm]
    exact (receive_term hr).le

theorem propose_term {command : List UInt8} {answer : Except ProposeError (Nat × List Outgoing)}
    (h : n.propose now command = .ok (n', answer)) : n'.term = n.term := by
  rcases propose_ok h with ⟨_, rfl, _⟩ | ⟨_, c, out, rfl, _⟩ <;> rfl

/-- Unlike a timer, a proposal or a message of the term or an earlier one moves no node beyond
the term. -/
theorem call_term_le {c : Call} {term : Nat} {answer : Option Nat} (hc : c.Within term)
    (hle : n.term ≤ term) (h : n.call c = .ok (n', out, answer)) : n'.term ≤ term := by
  cases c with
  | tick now => cases hc
  | propose now command =>
    obtain ⟨_, hp, _⟩ := call_propose_ok h
    exact (propose_term hp).trans_le hle
  | handle now sender msg =>
    obtain ⟨hh, rfl⟩ := call_handle_ok h
    exact (handle_term_le hh).trans (max_le hle hc)

/-! ## A leader in its term -/

/-- An AppendEntries of the node's term goes to every peer. -/
def Beats (n : Node Disk) (out : List Outgoing) : Prop :=
  ∀ p ∈ n.peers, ∃ o ∈ out, o.recipient = p ∧ o.message.Appends n.term

theorem broadcastAppend_beats (h : n.broadcastAppend = .ok out) : n.Beats out := by
  intro p hp
  obtain ⟨o, ho, hfor⟩ := broadcastAppend_reaches h hp
  exact ⟨o, ho, appendFor_appends hfor⟩

/-- A leader that handles a message or a proposal goes on to lead with its heartbeat due as
before, or moves on to a later term. -/
def Reigns (n n' : Node Disk) : Prop :=
  n.term < n'.term ∨
    (n'.term = n.term ∧ n'.role = .leader ∧ n'.heartbeatDeadline = n.heartbeatDeadline)

theorem receive_reigns {sender : Nat} {msg : Message} (hrole : n.role = .leader)
    (h : n.receive now sender msg = .ok (n', out)) : n.Reigns n' := by
  right
  cases msg with
  | requestVote term lastLogIndex lastLogTerm =>
    rcases onRequestVote_ok h with ⟨rfl, rfl⟩ | ⟨_, _, _, rfl, deadline, rng, rfl⟩ <;>
      exact ⟨rfl, hrole, rfl⟩
  | voteResponse term granted =>
    rcases onVoteResponse_ok h with ⟨rfl, rfl⟩ | ⟨hcandidate, _⟩
    · exact ⟨rfl, hrole, rfl⟩
    · rw [hrole] at hcandidate
      cases hcandidate
  | appendEntries term prevIndex prevTerm entries leaderCommit =>
    rcases onAppendEntries_ok h with ⟨_, rfl, rfl⟩ | ⟨_, hno, _⟩
    · exact ⟨rfl, hrole, rfl⟩
    · exact absurd hrole hno
  | appendResponse term success matchIndex =>
    rcases onAppendResponse_ok h with ⟨_, rfl, rfl⟩ | ⟨_, _, known, _, hcase⟩
    · exact ⟨rfl, hrole, rfl⟩
    rcases hcase with ⟨_, hcommit, _⟩ | ⟨_, next, o, _, rfl, _⟩
    · obtain ⟨c, rfl, _⟩ := advanceCommit_ok hcommit
      exact ⟨rfl, hrole, rfl⟩
    · exact ⟨rfl, hrole, rfl⟩

theorem handle_reigns {sender : Nat} {msg : Message} (hrole : n.role = .leader)
    (h : n.handle now sender msg = .ok (n', out)) : n.Reigns n' := by
  rcases handle_ok h with ⟨_, rfl, rfl⟩ | ⟨_, _, ⟨_, hr⟩ | ⟨hgt, f, hf, hr⟩⟩
  · exact .inr ⟨rfl, hrole, rfl⟩
  · exact receive_reigns hrole hr
  · have hle := (receive_timed hr).term_le
    obtain ⟨deadline, rng, rfl⟩ := stepDown_ok hf
    exact .inl (hgt.trans_le hle)

theorem propose_reigns {command : List UInt8}
    {answer : Except ProposeError (Nat × List Outgoing)} (hrole : n.role = .leader)
    (h : n.propose now command = .ok (n', answer)) : n.Reigns n' := by
  rcases propose_ok h with ⟨hno, _⟩ | ⟨_, c, out, rfl, _⟩
  · exact absurd hrole hno
  · exact .inr ⟨rfl, hrole, rfl⟩

theorem call_reigns {c : Call} {answer : Option Nat} (hc : ∀ now, c ≠ .tick now)
    (hrole : n.role = .leader) (h : n.call c = .ok (n', out, answer)) : n.Reigns n' := by
  cases c with
  | tick now => exact absurd rfl (hc now)
  | propose now command =>
    obtain ⟨_, hp, _⟩ := call_propose_ok h
    exact propose_reigns hrole hp
  | handle now sender msg =>
    obtain ⟨hh, rfl⟩ := call_handle_ok h
    exact handle_reigns hrole hh

/-! ## A follower in its term -/

/-- The node follows in the term with no election due before the tick `due`, or it has moved on
to a later term. -/
def Heeds (term due : Nat) (n : Node Disk) : Prop :=
  term < n.term ∨ (n.term = term ∧ n.role = .follower ∧ due ≤ n.electionDeadline)

/-- A call may draw a new deadline, an earlier one too, but none before the shortest timeout. -/
theorem Heeds.timed {term due : Nat} (h : n.Heeds term due) (ht : Timed now n n' out)
    (hdue : due ≤ now + n.cfg.electionTimeout.1) : n'.Heeds term due := by
  rcases h with hlt | ⟨rfl, hrole, hle⟩
  · exact .inl (hlt.trans_le ht.term_le)
  rcases ht.reign with hlt | ⟨heq, hrearmed, hfollows⟩
  · exact .inl hlt
  · refine .inr ⟨heq, hfollows hrole, ?_⟩
    rcases hrearmed with hsame | hlate
    · rw [hsame]
      exact hle
    · exact hdue.trans hlate

theorem receive_heeds {sender : Nat} {msg : Message} (hmsg : msg.Appends n.term)
    (h : n.receive now sender msg = .ok (n', out)) :
    n'.Heeds n.term (now + n.cfg.electionTimeout.1) := by
  cases msg with
  | appendEntries term prevIndex prevTerm entries leaderCommit =>
    have hle : n.term ≤ term := hmsg.ge
    obtain ⟨_, hterm, hrole⟩ := onAppendEntries_follows hle h
    exact .inr ⟨hterm, hrole, onAppendEntries_late hle h⟩
  | _ => cases hmsg

/-- A node that handles an AppendEntries of a peer follows in its term, if not in a later one. -/
theorem handle_heeds {sender term : Nat} {msg : Message} (hmsg : msg.Appends term)
    (hp : sender ∈ n.peers) (h : n.handle now sender msg = .ok (n', out)) :
    n'.Heeds term (now + n.cfg.electionTimeout.1) := by
  have hterm := hmsg.term_eq
  obtain ⟨hlt, hne⟩ := mem_peers.mp hp
  rcases handle_ok h with ⟨hself | hout, _⟩ | ⟨_, _, ⟨hle, hr⟩ | ⟨hgt, f, hf, hr⟩⟩
  · exact absurd hself hne
  · exact absurd hlt (Nat.not_lt.mpr hout)
  · rw [hterm] at hle
    rcases hle.eq_or_lt with rfl | hlater
    · exact receive_heeds hmsg hr
    · exact .inl (hlater.trans_le (receive_timed hr).term_le)
  · rw [hterm] at hf
    obtain ⟨deadline, rng, rfl⟩ := stepDown_ok hf
    have hheeds := receive_heeds hmsg hr
    exact hheeds

end Node

end Landsraad
