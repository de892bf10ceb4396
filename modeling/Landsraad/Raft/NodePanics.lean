import Landsraad.Raft.NodeSpec

/-!
# Which panics a handler can raise

Apart from the election safety assertion of AppendEntries, a handler panics only where the
machine arithmetic overflows or an access is out of range.
-/

namespace Landsraad

open Checked

/-- A panic other than a violated assertion. -/
def Unasserted (p : Panic) : Prop := ∀ text, p ≠ .assertion text

theorem Unasserted.overflow : Unasserted .overflow := by simp [Unasserted]

theorem Unasserted.outOfRange : Unasserted .outOfRange := by simp [Unasserted]

open Unasserted

namespace Node

variable (n : Node Disk) (now : Nat)

theorem resetElectionTimer_unasserted : PanicsOnly Unasserted (n.resetElectionTimer now) :=
  (PanicsOnly.sub overflow _ _).bind fun _ _ => (PanicsOnly.add overflow _ _).bind fun _ _ =>
    (PanicsOnly.add overflow _ _).bind fun _ _ => (PanicsOnly.add overflow _ _).bind fun _ _ =>
    .pure _

theorem stepDown_unasserted (term : Nat) : PanicsOnly Unasserted (n.stepDown now term) :=
  (PanicsOnly.ok _).bind fun _ _ => resetElectionTimer_unasserted _ now

theorem termAt_unasserted (index : Nat) : PanicsOnly Unasserted (n.termAt index) := by
  unfold termAt
  split
  · exact .ok _
  · exact (PanicsOnly.get outOfRange _ _).bind fun _ _ => .pure _

theorem appendFor_unasserted (p : Nat) : PanicsOnly Unasserted (n.appendFor p) :=
  (PanicsOnly.get outOfRange _ _).bind fun _ _ => (PanicsOnly.sub overflow _ _).bind fun _ _ =>
    (PanicsOnly.add overflow _ _).bind fun _ _ => (termAt_unasserted n _).bind fun _ _ =>
    (PanicsOnly.slice outOfRange _ _ _).bind fun _ _ => .pure _

theorem broadcastAppend_unasserted : PanicsOnly Unasserted n.broadcastAppend :=
  .mapM fun p _ => appendFor_unasserted n p

theorem replicasAmong_unasserted (k : Nat) (ps : List Nat) :
    PanicsOnly Unasserted (n.replicasAmong k ps) := by
  induction ps with
  | nil => exact .ok _
  | cons p ps ih =>
    exact (PanicsOnly.get outOfRange _ _).bind fun _ _ => ih.bind fun _ _ => .pure _

theorem commitScan_unasserted (k : Nat) : PanicsOnly Unasserted (n.commitScan k) := by
  induction k with
  | zero => exact .ok _
  | succ k ih =>
    rw [commitScan]
    split
    · exact .ok _
    · refine (termAt_unasserted n _).bind fun t _ => ?_
      split
      · exact .pure _
      · refine (replicasAmong_unasserted n _ _).bind fun m _ => ?_
        dsimp only
        split
        · exact .pure _
        · exact ih

theorem advanceCommit_unasserted : PanicsOnly Unasserted n.advanceCommit :=
  (PanicsOnly.add overflow _ _).bind fun _ _ => commitScan_unasserted n _

theorem becomeLeader_unasserted : PanicsOnly Unasserted (n.becomeLeader now) :=
  (PanicsOnly.add overflow _ _).bind fun _ _ => (PanicsOnly.ok _).bind fun _ _ =>
    (advanceCommit_unasserted _).bind fun _ _ => (PanicsOnly.add overflow _ _).bind fun _ _ =>
    (broadcastAppend_unasserted _).bind fun _ _ => .pure _

theorem onRequestVote_unasserted (sender term lastLogIndex lastLogTerm : Nat) :
    PanicsOnly Unasserted (n.onRequestVote now sender term lastLogIndex lastLogTerm) := by
  unfold onRequestVote
  dsimp only
  split
  · refine (termAt_unasserted n _).bind fun t _ => ?_
    split
    · exact (PanicsOnly.ok _).bind fun _ _ =>
        (resetElectionTimer_unasserted _ now).bind fun _ _ => .pure _
    · exact .pure _
  · exact .pure _

theorem onVoteResponse_unasserted (sender term : Nat) (granted : Bool) :
    PanicsOnly Unasserted (n.onVoteResponse now sender term granted) := by
  unfold onVoteResponse
  split
  · exact .pure _
  · refine (PanicsOnly.set outOfRange _ _ _).bind fun votes _ => ?_
    dsimp only
    split
    · exact becomeLeader_unasserted _ now
    · exact .pure _

theorem mergeEntries_unasserted (prevIndex k : Nat) (entries : List Entry) :
    PanicsOnly Unasserted (n.mergeEntries prevIndex k entries) := by
  induction entries generalizing k with
  | nil => exact .pure _
  | cons e rest ih =>
    rw [mergeEntries]
    refine (PanicsOnly.add overflow _ _).bind fun _ _ =>
      (PanicsOnly.add overflow _ _).bind fun idx _ => ?_
    split
    · refine (termAt_unasserted n _).bind fun t _ => ?_
      split
      · exact ih (k + 1)
      · exact (PanicsOnly.ok _).bind fun _ _ => (PanicsOnly.ok _).bind fun _ _ => .pure _
    · exact (PanicsOnly.ok _).bind fun _ _ => .pure _

theorem onAppendEntries_unasserted (sender term prevIndex prevTerm : Nat) (entries : List Entry)
    (leaderCommit : Nat) (hrole : n.term ≤ term → n.role ≠ .leader) :
    PanicsOnly Unasserted
      (n.onAppendEntries now sender term prevIndex prevTerm entries leaderCommit) := by
  unfold onAppendEntries
  dsimp only
  split
  · exact .pure _
  next hge =>
  refine (PanicsOnly.assert (hrole (Nat.le_of_not_lt hge)) _).bind fun _ _ =>
    (resetElectionTimer_unasserted _ now).bind fun f _ => ?_
  split
  · exact .pure _
  refine (termAt_unasserted f _).bind fun t _ => ?_
  split
  · exact .pure _
  · exact (mergeEntries_unasserted f _ _ _).bind fun _ _ =>
      (PanicsOnly.add overflow _ _).bind fun _ _ => .pure _

theorem onAppendResponse_unasserted (sender term matchIndex : Nat) (success : Bool) :
    PanicsOnly Unasserted (n.onAppendResponse sender term success matchIndex) := by
  unfold onAppendResponse
  split
  · exact .pure _
  refine (PanicsOnly.get outOfRange _ _).bind fun known _ => ?_
  split
  · refine (PanicsOnly.add overflow _ _).bind fun next _ =>
      (PanicsOnly.set outOfRange _ _ _).bind fun _ _ =>
      (advanceCommit_unasserted _).bind fun m _ => ?_
    split
    · exact (appendFor_unasserted m _).bind fun _ _ => .pure _
    · exact .pure _
  · exact (PanicsOnly.add overflow _ _).bind fun _ _ =>
      (PanicsOnly.add overflow _ _).bind fun _ _ =>
      (PanicsOnly.get outOfRange _ _).bind fun _ _ =>
      (PanicsOnly.set outOfRange _ _ _).bind fun _ _ =>
      (appendFor_unasserted _ _).bind fun _ _ => .pure _

/-- A handler keeps every assertion, unless a leader receives an AppendEntries of its own term. -/
theorem handle_unasserted (sender : Nat) (msg : Message)
    (h : ∀ prevIndex prevTerm entries leaderCommit,
      msg = .appendEntries n.term prevIndex prevTerm entries leaderCommit → sender ≠ n.cfg.id →
        n.role ≠ .leader) :
    PanicsOnly Unasserted (n.handle now sender msg) := by
  unfold handle
  split
  · exact .pure _
  next hcond =>
  have hdown : PanicsOnly Unasserted
      (if msg.term > n.term then n.stepDown now msg.term else pure n : Checked (Node Disk)) := by
    split
    · exact stepDown_unasserted n now _
    · exact .pure _
  refine hdown.bind fun f hf => ?_
  cases msg with
  | requestVote term lastLogIndex lastLogTerm => exact onRequestVote_unasserted f now _ _ _ _
  | voteResponse term granted => exact onVoteResponse_unasserted f now _ _ _
  | appendEntries term prevIndex prevTerm entries leaderCommit =>
    refine onAppendEntries_unasserted f now _ _ _ _ _ _ fun hle => ?_
    split at hf
    · obtain ⟨_, _, rfl⟩ := stepDown_ok hf
      simp
    · next hgt =>
      cases hf
      obtain rfl : term = n.term := by
        have hge : ¬ term > n.term := hgt
        omega
      exact h _ _ _ _ rfl fun he => hcond (.inl he)
  | appendResponse term success matchIndex => exact onAppendResponse_unasserted f _ _ _ _

end Node

end Landsraad
