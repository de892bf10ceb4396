import Landsraad.Raft.Persistence
import Landsraad.Raft.Sietch

/-!
# A node over another storage

A node reaches its storage through the four operations only. Where one storage simulates another
in these, a node over the one does in every call what the same node over the other does. The
relation between the storages may depend on how many entries they still have to take, and a call
adds no more of them than its message carries.
-/

namespace Landsraad

open Checked

/-! ## How far a log may grow -/

def Mutation.growth : Mutation → Nat
  | .append entries => entries.length
  | _ => 0

/-- How many entries a handler may append: those of the message, or the no-op of an election that
the vote decides. -/
def Message.growth : Message → Nat
  | .appendEntries _ _ _ entries _ => entries.length
  | .voteResponse _ _ => 1
  | _ => 0

def Call.growth : Call → Nat
  | .tick _ => 1
  | .propose _ _ => 1
  | .handle _ _ message => message.growth

section

variable {σ τ : Type} [Storage σ] [Storage τ]

/-- Operations on storages that are related up to a number of entries still to come return the
same and leave them related, but the first storage may raise the panics `P` besides. Only values
that fit a machine word are written. -/
structure StorageSim (P : Panic → Prop) (R : Nat → σ → τ → Prop) : Prop where
  load : ∀ k s t, R k s t →
    Coupled P (fun x y => x.1 = y.1 ∧ R k x.2 y.2) (Storage.load s) (Storage.load t)
  mutate : ∀ k s t, ∀ m : Mutation, R (k + m.growth) s t → m.Typed →
    Coupled P (R k) (m.run s) (m.run t)
  fewer : ∀ j k s t, R (k + j) s t → R k s t

namespace Node

omit [Storage σ] [Storage τ] in
/-- The node `n` with another storage. -/
def atop (n : Node σ) (t : τ) : Node τ where
  cfg := n.cfg
  storage := t
  term := n.term
  votedFor := n.votedFor
  log := n.log
  role := n.role
  leaderId := n.leaderId
  commitIndex := n.commitIndex
  appliedIndex := n.appliedIndex
  votes := n.votes
  nextIndex := n.nextIndex
  matchIndex := n.matchIndex
  electionDeadline := n.electionDeadline
  heartbeatDeadline := n.heartbeatDeadline
  rng := n.rng

/-- The nodes differ in their storages only, and those are related. -/
def Alike (R : σ → τ → Prop) (n : Node σ) (m : Node τ) : Prop :=
  ∃ t, R n.storage t ∧ m = n.atop t

/-- The nodes are alike, and the calls returned the same besides. -/
def Likewise {α : Type} (R : σ → τ → Prop) (x : Node σ × α) (y : Node τ × α) : Prop :=
  Alike R x.1 y.1 ∧ x.2 = y.2

/-- The ids of the cluster and the node's own term fit a machine word, and no id is the word for
no vote. -/
structure Fits (n : Node σ) : Prop where
  id : n.cfg.id < n.cfg.clusterSize
  size : n.cfg.clusterSize ≤ SietchStorage.noVote
  term : n.term < wordSize

end Node

/-- The term of the message and those of its entries fit a machine word. -/
def Message.Fits (msg : Message) : Prop :=
  msg.term < wordSize ∧ match msg with
    | .appendEntries _ _ _ entries _ => ∀ e ∈ entries, e.term < wordSize
    | _ => True

namespace Node

variable {P : Panic → Prop} {R : σ → τ → Prop} {n : Node σ} {t : τ} {now : Nat}

/-! ## Methods that leave the storage alone -/

omit [Storage σ] [Storage τ]

theorem resetElectionTimer_coupled (hR : R n.storage t) :
    Coupled P (Alike R) (n.resetElectionTimer now) ((n.atop t).resetElectionTimer now) := by
  unfold resetElectionTimer
  apply Coupled.bind_same
  intro a _
  apply Coupled.bind_same
  intro span _
  apply Coupled.bind_same
  intro b _
  apply Coupled.bind_same
  intro deadline _
  apply Coupled.pure
  exact ⟨t, hR, rfl⟩

theorem replicasAmong_atop (k : Nat) (ps : List Nat) :
    (n.atop t).replicasAmong k ps = n.replicasAmong k ps := by
  induction ps with
  | nil => rfl
  | cons p ps ih =>
    rw [replicasAmong, ih]
    rfl

theorem broadcastAppend_atop : (n.atop t).broadcastAppend = n.broadcastAppend := rfl

theorem commitScan_coupled (hR : R n.storage t) (k : Nat) :
    Coupled P (Alike R) (n.commitScan k) ((n.atop t).commitScan k) := by
  induction k with
  | zero => exact .ok ⟨t, hR, rfl⟩
  | succ k ih =>
    unfold commitScan
    apply Coupled.ite
    · exact fun _ => .ok ⟨t, hR, rfl⟩
    intro _
    apply Coupled.bind_same
    intro term _
    apply Coupled.ite
    · exact fun _ => .pure ⟨t, hR, rfl⟩
    intro _
    rw [replicasAmong_atop]
    apply Coupled.bind_same
    intro replicas _
    apply Coupled.ite
    · exact fun _ => .pure ⟨t, hR, rfl⟩
    · exact fun _ => ih

theorem advanceCommit_coupled (hR : R n.storage t) :
    Coupled P (Alike R) n.advanceCommit (n.atop t).advanceCommit := by
  unfold advanceCommit
  apply Coupled.bind_same
  intro _ _
  exact commitScan_coupled hR n.lastIndex

theorem takeCommitted_coupled (hR : R n.storage t) :
    Coupled P (Likewise R) n.takeCommitted (n.atop t).takeCommitted := by
  unfold takeCommitted
  apply Coupled.bind_same
  intro start _
  apply Coupled.bind_same
  intro out _
  exact .pure ⟨⟨t, hR, rfl⟩, rfl⟩

/-- The last step of a method that sends to all peers. -/
theorem broadcast_coupled (hR : R n.storage t) :
    Coupled P (Likewise R) (do let out ← n.broadcastAppend; pure (n, out))
      (do let out ← (n.atop t).broadcastAppend; pure (n.atop t, out)) := by
  rw [broadcastAppend_atop]
  apply Coupled.bind_same
  intro out _
  exact .pure ⟨⟨t, hR, rfl⟩, rfl⟩

end Node

end

section

variable {σ τ : Type} [Storage σ] [Storage τ] {P : Panic → Prop}
  {R : Nat → σ → τ → Prop} {k : Nat} {n : Node σ} {t : τ} {now : Nat}

/-! ## Writes -/

namespace StorageSim

variable (sim : StorageSim P R)

include sim

theorem saveHardState {s : σ} (hR : R k s t) {term : Nat} {votedFor : Option Nat}
    (hterm : term < wordSize) (hvote : ∀ v ∈ votedFor, v < SietchStorage.noVote) :
    Coupled P (R k) (Storage.saveHardState s term votedFor)
      (Storage.saveHardState t term votedFor) :=
  sim.mutate k s t (.saveHardState term votedFor) hR ⟨hterm, hvote⟩

theorem append {s : σ} {entries : List Entry} (hR : R (k + entries.length) s t)
    (hterms : ∀ e ∈ entries, e.term < wordSize) :
    Coupled P (R k) (Storage.append s entries) (Storage.append t entries) :=
  sim.mutate k s t (.append entries) hR hterms

theorem truncateFrom {s : σ} (hR : R k s t) (index : Nat) :
    Coupled P (R k) (Storage.truncateFrom s index) (Storage.truncateFrom t index) :=
  sim.mutate k s t (.truncateFrom index) hR trivial

end StorageSim

namespace Node

variable (sim : StorageSim P R)

include sim

theorem persistHardState_coupled (hR : R k n.storage t) (hterm : n.term < wordSize)
    (hvote : ∀ v ∈ n.votedFor, v < SietchStorage.noVote) :
    Coupled P (Alike (R k)) n.persistHardState (n.atop t).persistHardState := by
  unfold persistHardState
  apply (sim.saveHardState hR hterm hvote).bind
  intro s t' _ hR'
  exact .pure ⟨t', hR', rfl⟩

theorem new_coupled {s : σ} {cfg : Config} (hR : R k s t) :
    Coupled P (Alike (R k)) (Node.new cfg s now) (Node.new cfg t now) := by
  unfold Node.new
  apply Coupled.bind_same
  intro _ _
  apply Coupled.bind_same
  intro _ _
  apply (sim.load k s t hR).bind
  rintro ⟨p, s'⟩ ⟨q, t'⟩ - ⟨rfl, hR'⟩
  exact resetElectionTimer_coupled (n := Node.mk cfg s' _ _ _ _ _ _ _ _ _ _ _ _ _) hR'

theorem stepDown_coupled (hR : R k n.storage t) {term : Nat} (hterm : term < wordSize) :
    Coupled P (Alike (R k)) (n.stepDown now term) ((n.atop t).stepDown now term) := by
  unfold stepDown
  have hvote : ∀ v ∈ (none : Option Nat), v < SietchStorage.noVote := by simp
  apply (persistHardState_coupled sim (n := { n with term, votedFor := none }) hR hterm hvote).bind
  rintro n₁ _ - ⟨t', hR', rfl⟩
  exact resetElectionTimer_coupled (n := { n₁ with role := .follower, leaderId := none }) hR'

theorem becomeLeader_coupled (hR : R (k + 1) n.storage t) (hterm : n.term < wordSize) :
    Coupled P (Likewise (R k)) (n.becomeLeader now) ((n.atop t).becomeLeader now) := by
  unfold becomeLeader
  apply Coupled.bind_same
  intro next _
  have hterms : ∀ e ∈ [(⟨n.term, []⟩ : Entry)], e.term < wordSize := by
    intro e he
    rw [List.mem_singleton.mp he]
    exact hterm
  apply (sim.append hR hterms).bind
  intro s t' _ hR'
  refine Coupled.bind (Q := Alike (R k)) ?_ ?_
  · exact advanceCommit_coupled hR'
  rintro n₁ _ - ⟨t₁, hR₁, rfl⟩
  apply Coupled.bind_same
  intro deadline _
  exact broadcast_coupled (n := { n₁ with heartbeatDeadline := deadline }) hR₁

theorem startElection_coupled (hR : R (k + 1) n.storage t) (hid : n.cfg.id < SietchStorage.noVote) :
    Coupled P (Likewise (R k)) (n.startElection now) ((n.atop t).startElection now) := by
  unfold startElection
  apply Coupled.bind_same
  intro term hadd
  have hterm : term < wordSize := by
    obtain ⟨hlt, rfl⟩ := add_eq_ok.mp hadd
    exact hlt
  have hvote : ∀ v ∈ some n.cfg.id, v < SietchStorage.noVote := by
    rintro v hv
    cases hv
    exact hid
  apply (persistHardState_coupled sim (n := { n with term, votedFor := some n.cfg.id }) hR hterm
    hvote).bind
  rintro n₁ _ hpersist ⟨t₁, hR₁, rfl⟩
  have hterm₁ : n₁.term = term := by
    obtain ⟨s, _, hn₁⟩ := bind_eq_ok.mp hpersist
    cases hn₁
    rfl
  apply Coupled.bind_same
  intro votes _
  refine Coupled.bind (Q := Alike (R (k + 1))) ?_ ?_
  · exact resetElectionTimer_coupled hR₁
  rintro n₂ _ hreset ⟨t₂, hR₂, rfl⟩
  obtain ⟨deadline, rng, rfl⟩ := resetElectionTimer_ok hreset
  apply Coupled.ite
  · intro _
    exact becomeLeader_coupled sim hR₂ (hterm₁ ▸ hterm)
  · intro _
    apply Coupled.bind_same
    intro lastTerm _
    exact .pure ⟨⟨t₂, sim.fewer 1 _ _ _ hR₂, rfl⟩, rfl⟩

theorem tick_coupled (hR : R (k + 1) n.storage t) (hid : n.cfg.id < SietchStorage.noVote) :
    Coupled P (Likewise (R k)) (n.tick now) ((n.atop t).tick now) := by
  have helect : Coupled P (Likewise (R k))
      (if now ≥ n.electionDeadline then n.startElection now else pure (n, []))
      (if now ≥ n.electionDeadline then (n.atop t).startElection now else pure (n.atop t, [])) := by
    apply Coupled.ite
    · exact fun _ => startElection_coupled sim hR hid
    · exact fun _ => .pure ⟨⟨t, sim.fewer 1 _ _ _ hR, rfl⟩, rfl⟩
  cases hrole : n.role with
  | leader =>
    have hrole' : (n.atop t).role = .leader := hrole
    simp only [tick, hrole, hrole']
    apply Coupled.ite
    · intro _
      apply Coupled.bind_same
      intro deadline _
      apply broadcast_coupled
      exact sim.fewer 1 _ _ _ hR
    · exact fun _ => .pure ⟨⟨t, sim.fewer 1 _ _ _ hR, rfl⟩, rfl⟩
  | follower =>
    have hrole' : (n.atop t).role = .follower := hrole
    simp only [tick, hrole, hrole']
    exact helect
  | candidate =>
    have hrole' : (n.atop t).role = .candidate := hrole
    simp only [tick, hrole, hrole']
    exact helect

theorem propose_coupled (hR : R (k + 1) n.storage t) (hterm : n.term < wordSize)
    (command : List UInt8) :
    Coupled P (Likewise (R k)) (n.propose now command) ((n.atop t).propose now command) := by
  unfold propose
  apply Coupled.ite
  · exact fun _ => .pure ⟨⟨t, sim.fewer 1 _ _ _ hR, rfl⟩, rfl⟩
  intro _
  have hterms : ∀ e ∈ [(⟨n.term, command⟩ : Entry)], e.term < wordSize := by
    intro e he
    rw [List.mem_singleton.mp he]
    exact hterm
  apply (sim.append hR hterms).bind
  intro s t' _ hR'
  refine Coupled.bind (Q := Alike (R k)) ?_ ?_
  · exact advanceCommit_coupled hR'
  rintro n₁ _ - ⟨t₁, hR₁, rfl⟩
  rw [broadcastAppend_atop]
  apply Coupled.bind_same
  intro out _
  exact .pure ⟨⟨t₁, hR₁, rfl⟩, rfl⟩

theorem onRequestVote_coupled (hR : R k n.storage t) (hterm : n.term < wordSize) {sender : Nat}
    (hsender : sender < SietchStorage.noVote) (term lastLogIndex lastLogTerm : Nat) :
    Coupled P (Likewise (R k)) (n.onRequestVote now sender term lastLogIndex lastLogTerm)
      ((n.atop t).onRequestVote now sender term lastLogIndex lastLogTerm) := by
  unfold onRequestVote
  apply Coupled.ite
  swap
  · exact fun _ => .pure ⟨⟨t, hR, rfl⟩, rfl⟩
  intro _
  apply Coupled.bind_same
  intro lastTerm _
  apply Coupled.ite
  swap
  · exact fun _ => .pure ⟨⟨t, hR, rfl⟩, rfl⟩
  intro _
  have hvote : ∀ v ∈ some sender, v < SietchStorage.noVote := by
    rintro v hv
    cases hv
    exact hsender
  apply (persistHardState_coupled sim (n := { n with votedFor := some sender }) hR hterm hvote).bind
  rintro n₁ _ - ⟨t₁, hR₁, rfl⟩
  apply (resetElectionTimer_coupled hR₁).bind
  rintro n₂ _ - ⟨t₂, hR₂, rfl⟩
  exact .pure ⟨⟨t₂, hR₂, rfl⟩, rfl⟩

theorem onVoteResponse_coupled (hR : R (k + 1) n.storage t) (hterm : n.term < wordSize)
    (sender term : Nat) (granted : Bool) :
    Coupled P (Likewise (R k)) (n.onVoteResponse now sender term granted)
      ((n.atop t).onVoteResponse now sender term granted) := by
  unfold onVoteResponse
  apply Coupled.ite
  · exact fun _ => .pure ⟨⟨t, sim.fewer 1 _ _ _ hR, rfl⟩, rfl⟩
  intro _
  apply Coupled.bind_same
  intro votes _
  apply Coupled.ite
  · exact fun _ => becomeLeader_coupled sim (n := { n with votes }) hR hterm
  · exact fun _ => .pure ⟨⟨t, sim.fewer 1 _ _ _ hR, rfl⟩, rfl⟩

theorem mergeEntries_coupled {prevIndex j : Nat} {entries : List Entry}
    (hR : R (k + entries.length) n.storage t) (hterms : ∀ e ∈ entries, e.term < wordSize) :
    Coupled P (Alike (R k)) (n.mergeEntries prevIndex j entries)
      ((n.atop t).mergeEntries prevIndex j entries) := by
  induction entries generalizing j with
  | nil => exact .pure ⟨t, hR, rfl⟩
  | cons e rest ih =>
    unfold mergeEntries
    apply Coupled.bind_same
    intro i _
    apply Coupled.bind_same
    intro idx _
    apply Coupled.ite
    swap
    · intro _
      apply (sim.append hR hterms).bind
      intro s t' _ hR'
      exact .pure ⟨t', hR', rfl⟩
    intro _
    apply Coupled.bind_same
    intro term _
    apply Coupled.ite
    · exact fun _ => ih (sim.fewer 1 _ _ _ hR) fun e he => hterms e (List.mem_cons_of_mem _ he)
    intro _
    apply (sim.truncateFrom hR idx).bind
    intro s t' _ hR'
    apply (sim.append hR' hterms).bind
    intro s' t'' _ hR''
    exact .pure ⟨t'', hR'', rfl⟩

theorem onAppendEntries_coupled {entries : List Entry} (hR : R (k + entries.length) n.storage t)
    (sender term prevIndex prevTerm : Nat) (hterms : ∀ e ∈ entries, e.term < wordSize)
    (leaderCommit : Nat) :
    Coupled P (Likewise (R k))
      (n.onAppendEntries now sender term prevIndex prevTerm entries leaderCommit)
      ((n.atop t).onAppendEntries now sender term prevIndex prevTerm entries leaderCommit) := by
  unfold onAppendEntries
  dsimp only
  apply Coupled.ite
  · exact fun _ => .pure ⟨⟨t, sim.fewer _ _ _ _ hR, rfl⟩, rfl⟩
  intro _
  apply Coupled.bind_same
  intro _ _
  refine Coupled.bind (Q := Alike (R (k + entries.length))) ?_ ?_
  · exact resetElectionTimer_coupled hR
  rintro n₁ _ - ⟨t₁, hR₁, rfl⟩
  apply Coupled.ite
  · exact fun _ => .pure ⟨⟨t₁, sim.fewer _ _ _ _ hR₁, rfl⟩, rfl⟩
  intro _
  apply Coupled.bind_same
  intro prev _
  apply Coupled.ite
  · exact fun _ => .pure ⟨⟨t₁, sim.fewer _ _ _ _ hR₁, rfl⟩, rfl⟩
  intro _
  apply (mergeEntries_coupled sim hR₁ hterms).bind
  rintro n₂ _ - ⟨t₂, hR₂, rfl⟩
  apply Coupled.bind_same
  intro matched _
  apply Coupled.pure
  by_cases hlt : leaderCommit > n₂.commitIndex
  · have hlt' : leaderCommit > (n₂.atop t₂).commitIndex := hlt
    rw [if_pos hlt, if_pos hlt']
    exact ⟨⟨t₂, hR₂, rfl⟩, rfl⟩
  · have hle' : ¬ leaderCommit > (n₂.atop t₂).commitIndex := hlt
    rw [if_neg hlt, if_neg hle']
    exact ⟨⟨t₂, hR₂, rfl⟩, rfl⟩

omit sim [Storage σ] [Storage τ] in
/-- The last step of a method that sends to one peer. -/
theorem appendFor_coupled (hR : R k n.storage t) (peer : Nat) :
    Coupled P (Likewise (R k)) (do let o ← n.appendFor peer; pure (n, [o]))
      (do let o ← (n.atop t).appendFor peer; pure (n.atop t, [o])) := by
  have hsame : (n.atop t).appendFor peer = n.appendFor peer := rfl
  rw [hsame]
  apply Coupled.bind_same
  intro o _
  exact .pure ⟨⟨t, hR, rfl⟩, rfl⟩

omit sim [Storage σ] [Storage τ] in
theorem onAppendResponse_coupled (hR : R k n.storage t) (sender term matchIndex : Nat)
    (success : Bool) :
    Coupled P (Likewise (R k)) (n.onAppendResponse sender term success matchIndex)
      ((n.atop t).onAppendResponse sender term success matchIndex) := by
  unfold onAppendResponse
  apply Coupled.ite
  · exact fun _ => .pure ⟨⟨t, hR, rfl⟩, rfl⟩
  intro _
  apply Coupled.bind_same
  intro known _
  apply Coupled.ite
  · intro _
    apply Coupled.bind_same
    intro next _
    apply Coupled.bind_same
    intro nextIndex _
    refine Coupled.bind (Q := Alike (R k)) ?_ ?_
    · exact advanceCommit_coupled hR
    rintro n₁ _ - ⟨t₁, hR₁, rfl⟩
    apply Coupled.ite
    · exact fun _ => appendFor_coupled hR₁ sender
    · exact fun _ => .pure ⟨⟨t₁, hR₁, rfl⟩, rfl⟩
  · intro _
    apply Coupled.bind_same
    intro lowest _
    apply Coupled.bind_same
    intro hint _
    apply Coupled.bind_same
    intro next _
    apply Coupled.bind_same
    intro nextIndex _
    apply appendFor_coupled
    exact hR

theorem handle_coupled {msg : Message} (hR : R (k + msg.growth) n.storage t) (hn : n.Fits)
    (sender : Nat) (hmsg : msg.Fits) :
    Coupled P (Likewise (R k)) (n.handle now sender msg) ((n.atop t).handle now sender msg) := by
  unfold handle
  apply Coupled.ite
  · exact fun _ => .pure ⟨⟨t, sim.fewer _ _ _ _ hR, rfl⟩, rfl⟩
  intro hguard
  have hsender : sender < SietchStorage.noVote := by
    have := hn.size
    omega
  refine Coupled.bind
    (Q := fun n₁ m₁ => Alike (R (k + msg.growth)) n₁ m₁ ∧ n₁.term < wordSize) ?_ ?_
  · apply Coupled.ite
    · intro _
      refine ⟨fun n₁ hdown => ?_, (stepDown_coupled sim hR hmsg.1).panics⟩
      obtain ⟨m₁, hm₁, halike⟩ := (stepDown_coupled sim hR hmsg.1).returns n₁ hdown
      obtain ⟨n₂, hpersist, hreset⟩ := bind_eq_ok.mp hdown
      obtain ⟨s, _, hn₂⟩ := bind_eq_ok.mp hpersist
      cases hn₂
      obtain ⟨deadline, rng, rfl⟩ := resetElectionTimer_ok hreset
      exact ⟨m₁, hm₁, halike, hmsg.1⟩
    · exact fun _ => .pure ⟨⟨t, hR, rfl⟩, hn.term⟩
  rintro n₁ _ - ⟨⟨t₁, hR₁, rfl⟩, hterm⟩
  cases msg with
  | requestVote term lastLogIndex lastLogTerm =>
    exact onRequestVote_coupled sim hR₁ hterm hsender term lastLogIndex lastLogTerm
  | voteResponse term granted => exact onVoteResponse_coupled sim hR₁ hterm sender term granted
  | appendEntries term prevIndex prevTerm entries leaderCommit =>
    exact onAppendEntries_coupled sim hR₁ sender term prevIndex prevTerm hmsg.2 leaderCommit
  | appendResponse term success matchIndex =>
    exact onAppendResponse_coupled hR₁ sender term matchIndex success

end Node

/-- What a call may be given: a message whose terms fit a machine word. -/
def Call.Fits : Call → Prop
  | .handle _ _ msg => msg.Fits
  | _ => True

/-- Every call of a node over one storage does what it does over the other. -/
theorem Node.call_coupled (sim : StorageSim P R) {c : Call} (hR : R (k + c.growth) n.storage t)
    (hn : n.Fits) (hc : c.Fits) : Coupled P (Likewise (R k)) (n.call c) ((n.atop t).call c) := by
  have hid : n.cfg.id < SietchStorage.noVote := hn.id.trans_le hn.size
  cases c with
  | tick now =>
    apply (tick_coupled sim hR hid).bind
    rintro ⟨n₁, out⟩ ⟨m₁, _⟩ - ⟨halike, rfl⟩
    exact .pure ⟨halike, rfl⟩
  | propose now command =>
    apply (propose_coupled sim hR hn.term command).bind
    rintro ⟨n₁, answer⟩ ⟨m₁, _⟩ - ⟨halike, rfl⟩
    cases answer with
    | ok accepted => exact .pure ⟨halike, rfl⟩
    | error e => exact .pure ⟨halike, rfl⟩
  | handle now sender msg =>
    apply (handle_coupled sim hR hn sender hc).bind
    rintro ⟨n₁, out⟩ ⟨m₁, _⟩ - ⟨halike, rfl⟩
    exact .pure ⟨halike, rfl⟩

end

end Landsraad
