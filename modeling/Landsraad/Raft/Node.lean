import Landsraad.Raft.Storage

/-!
# The consensus node

A deterministic state machine without I/O. Inputs are `tick`, `handle` and `propose`, outputs
are the messages to send. Every method takes the node before the call and returns the node
after it; a method that would panic returns the panic.
-/

namespace Landsraad

inductive Role
  | follower
  | candidate
  | leader
deriving DecidableEq, Repr

structure Config where
  id : Nat
  clusterSize : Nat
  /-- Inclusive range of randomized election timeouts, in ticks. -/
  electionTimeout : Nat × Nat
  heartbeatInterval : Nat
  /-- Most entries sent in one AppendEntries. -/
  maxBatch : Nat
  /-- Seeds this node's timeout randomness (mixed with `id`). -/
  seed : UInt64
deriving Repr

def Config.new (id : Nat) (clusterSize : Nat) (seed : UInt64) : Config where
  id := id
  clusterSize := clusterSize
  electionTimeout := (150, 300)
  heartbeatInterval := 50
  maxBatch := 32
  seed := seed

structure Outgoing where
  recipient : Nat
  message : Message
deriving DecidableEq, Repr

inductive ProposeError
  | notLeader (lastKnown : Option Nat)
deriving DecidableEq, Repr

structure Node (σ : Type) where
  cfg : Config
  storage : σ
  term : Nat
  votedFor : Option Nat
  log : List Entry
  role : Role
  leaderId : Option Nat
  commitIndex : Nat
  appliedIndex : Nat
  votes : List Bool
  nextIndex : List Nat
  matchIndex : List Nat
  electionDeadline : Nat
  heartbeatDeadline : Nat
  rng : UInt64

namespace Node

variable {σ : Type}

def lastIndex (n : Node σ) : Nat := n.log.length

def quorum (n : Node σ) : Nat := n.cfg.clusterSize / 2 + 1

/-- SplitMix64. -/
def nextRand (n : Node σ) : UInt64 × Node σ :=
  let rng := n.rng + 0x9E3779B97F4A7C15
  let z := (rng ^^^ (rng >>> 30)) * 0xBF58476D1CE4E5B9
  let z := (z ^^^ (z >>> 27)) * 0x94D049BB133111EB
  (z ^^^ (z >>> 31), { n with rng })

def resetElectionTimer (n : Node σ) (now : Nat) : Checked (Node σ) := do
  let (lo, hi) := n.cfg.electionTimeout
  let span ← Checked.add (← Checked.sub hi lo) 1
  let (r, n) := n.nextRand
  let electionDeadline ← Checked.add (← Checked.add now lo) (r.toNat % span)
  pure { n with electionDeadline }

def termAt (n : Node σ) (index : Nat) : Checked Nat :=
  if index = 0 then .ok 0 else do
    let e ← Checked.get n.log (index - 1)
    pure e.term

def lastTerm (n : Node σ) : Checked Nat := n.termAt n.lastIndex

def peers (n : Node σ) : List Nat :=
  (List.range n.cfg.clusterSize).filter fun p => p ≠ n.cfg.id

def appendFor (n : Node σ) (peer : Nat) : Checked Outgoing := do
  let next ← Checked.get n.nextIndex peer
  let prevIndex ← Checked.sub next 1
  let stop ← Checked.add prevIndex n.cfg.maxBatch
  let prevTerm ← n.termAt prevIndex
  let entries ← Checked.slice n.log prevIndex (min n.log.length stop)
  pure ⟨peer, .appendEntries n.term prevIndex prevTerm entries n.commitIndex⟩

def broadcastAppend (n : Node σ) : Checked (List Outgoing) := n.peers.mapM n.appendFor

/-- How many of `peers` are known to store index `k`. -/
def replicasAmong (n : Node σ) (k : Nat) : List Nat → Checked Nat
  | [] => .ok 0
  | p :: ps => do
    let m ← Checked.get n.matchIndex p
    let rest ← n.replicasAmong k ps
    pure (if m ≥ k then rest + 1 else rest)

/-- The downward scan over the indices from `k` to just above the commit index. -/
def commitScan (n : Node σ) : Nat → Checked (Node σ)
  | 0 => .ok n
  | k + 1 =>
    if k + 1 ≤ n.commitIndex then .ok n else do
      if (← n.termAt (k + 1)) ≠ n.term then
        pure n
      else
        let replicas := 1 + (← n.replicasAmong (k + 1) n.peers)
        if replicas ≥ n.quorum then pure { n with commitIndex := k + 1 } else n.commitScan k

/-- Commits the highest entry of the current term stored on a majority. -/
def advanceCommit (n : Node σ) : Checked (Node σ) := do
  let _ ← Checked.add n.commitIndex 1
  n.commitScan n.lastIndex

/-- Newly committed entries since the last call, in order, with their indices. -/
def takeCommitted (n : Node σ) : Checked (Node σ × List (Nat × Entry)) := do
  let start ← Checked.add n.appliedIndex 1
  let out ← (List.range' start (n.commitIndex + 1 - start)).mapM fun i => do
    let e ← Checked.get n.log (i - 1)
    pure (i, e)
  pure ({ n with appliedIndex := n.commitIndex }, out)

variable [Storage σ]

/-- Starts, or restarts after a crash, a node from whatever `storage` holds. -/
def new (cfg : Config) (storage : σ) (now : Nat) : Checked (Node σ) := do
  Checked.assert (cfg.id < cfg.clusterSize) "node id out of range"
  Checked.assert (cfg.electionTimeout.1 > 0 ∧ cfg.electionTimeout.1 ≤ cfg.electionTimeout.2)
    ("assertion failed: cfg.election_timeout.0 > 0 && " ++
      "cfg.election_timeout.0 <= cfg.election_timeout.1")
  let (p, storage) ← Storage.load storage
  let n : Node σ :=
    { cfg, storage
      term := p.term
      votedFor := p.votedFor
      log := p.log
      role := .follower
      leaderId := none
      commitIndex := 0
      appliedIndex := 0
      votes := List.replicate cfg.clusterSize false
      nextIndex := List.replicate cfg.clusterSize 1
      matchIndex := List.replicate cfg.clusterSize 0
      electionDeadline := 0
      heartbeatDeadline := 0
      rng := cfg.seed ^^^ (UInt64.ofNat cfg.id * 0x9E3779B97F4A7C15) ^^^ UInt64.ofNat p.term }
  n.resetElectionTimer now

def persistHardState (n : Node σ) : Checked (Node σ) := do
  let storage ← Storage.saveHardState n.storage n.term n.votedFor
  pure { n with storage }

/-- Adopts a newer term: forget any vote, become a follower. -/
def stepDown (n : Node σ) (now : Nat) (term : Nat) : Checked (Node σ) := do
  let n ← { n with term, votedFor := none }.persistHardState
  { n with role := .follower, leaderId := none }.resetElectionTimer now

def becomeLeader (n : Node σ) (now : Nat) : Checked (Node σ × List Outgoing) := do
  let next ← Checked.add n.lastIndex 1
  let n := { n with
    role := .leader
    leaderId := some n.cfg.id
    nextIndex := List.replicate n.cfg.clusterSize next
    matchIndex := List.replicate n.cfg.clusterSize 0 }
  -- The no-op lets this leader commit entries from earlier terms.
  let noop : Entry := ⟨n.term, []⟩
  let storage ← Storage.append n.storage [noop]
  let n ← { n with storage, log := n.log ++ [noop] }.advanceCommit
  let heartbeatDeadline ← Checked.add now n.cfg.heartbeatInterval
  let n := { n with heartbeatDeadline }
  pure (n, ← n.broadcastAppend)

def startElection (n : Node σ) (now : Nat) : Checked (Node σ × List Outgoing) := do
  let term ← Checked.add n.term 1
  let n ← { n with term, votedFor := some n.cfg.id }.persistHardState
  let votes ← Checked.set (List.replicate n.cfg.clusterSize false) n.cfg.id true
  let n ← { n with role := .candidate, leaderId := none, votes }.resetElectionTimer now
  if n.votes.count true ≥ n.quorum then
    n.becomeLeader now
  else
    let msg := .requestVote n.term n.lastIndex (← n.lastTerm)
    pure (n, n.peers.map fun p => ⟨p, msg⟩)

def tick (n : Node σ) (now : Nat) : Checked (Node σ × List Outgoing) :=
  match n.role with
  | .leader =>
    if now ≥ n.heartbeatDeadline then do
      let heartbeatDeadline ← Checked.add now n.cfg.heartbeatInterval
      let n := { n with heartbeatDeadline }
      pure (n, ← n.broadcastAppend)
    else pure (n, [])
  | _ => if now ≥ n.electionDeadline then n.startElection now else pure (n, [])

/-- Appends a client command to the leader's log and starts replicating it. Returns the
entry's index; it is not committed yet. -/
def propose (n : Node σ) (_now : Nat) (command : List UInt8) :
    Checked (Node σ × Except ProposeError (Nat × List Outgoing)) :=
  if n.role ≠ .leader then pure (n, .error (.notLeader n.leaderId)) else do
    let e : Entry := ⟨n.term, command⟩
    let storage ← Storage.append n.storage [e]
    let n ← { n with storage, log := n.log ++ [e] }.advanceCommit
    pure (n, .ok (n.lastIndex, ← n.broadcastAppend))

def onRequestVote (n : Node σ) (now sender term lastLogIndex lastLogTerm : Nat) :
    Checked (Node σ × List Outgoing) := do
  let refuse := (n, [⟨sender, .voteResponse n.term false⟩])
  if term = n.term then
    let lastTerm ← n.lastTerm
    let upToDate := lastLogTerm > lastTerm ∨
      (lastLogTerm = lastTerm ∧ lastLogIndex ≥ n.lastIndex)
    let canVote := n.votedFor = none ∨ n.votedFor = some sender
    if canVote ∧ upToDate then
      let n ← { n with votedFor := some sender }.persistHardState
      let n ← n.resetElectionTimer now
      pure (n, [⟨sender, .voteResponse n.term true⟩])
    else pure refuse
  else pure refuse

def onVoteResponse (n : Node σ) (now sender term : Nat) (granted : Bool) :
    Checked (Node σ × List Outgoing) :=
  if n.role ≠ .candidate ∨ term ≠ n.term ∨ granted = false then pure (n, []) else do
    let votes ← Checked.set n.votes sender true
    let n := { n with votes }
    if n.votes.count true ≥ n.quorum then n.becomeLeader now else pure (n, [])

/-- The loop over the entries of an AppendEntries, from the `k`-th on. -/
def mergeEntries (n : Node σ) (prevIndex : Nat) (k : Nat) : List Entry → Checked (Node σ)
  | [] => pure n
  | e :: rest => do
    let idx ← Checked.add (← Checked.add prevIndex 1) k
    if idx ≤ n.lastIndex then
      if (← n.termAt idx) = e.term then
        n.mergeEntries prevIndex (k + 1) rest -- already have it
      else
        let storage ← Storage.truncateFrom n.storage idx
        let n := { n with log := n.log.take (idx - 1) }
        let storage ← Storage.append storage (e :: rest)
        pure { n with storage, log := n.log ++ e :: rest }
    else
      let storage ← Storage.append n.storage (e :: rest)
      pure { n with storage, log := n.log ++ e :: rest }

def onAppendEntries (n : Node σ) (now sender term prevIndex prevTerm : Nat)
    (entries : List Entry) (leaderCommit : Nat) :
    Checked (Node σ × List Outgoing) := do
  let respond (n : Node σ) (success : Bool) (matchIndex : Nat) :=
    (n, [(⟨sender, .appendResponse n.term success matchIndex⟩ : Outgoing)])
  if term < n.term then
    return respond n false 0
  Checked.assert (n.role ≠ .leader)
    s!"two leaders in term {n.term}: election safety violated"
  -- There is a leader for this term, so any candidacy is over.
  let n ← { n with role := .follower, leaderId := some sender }.resetElectionTimer now
  if prevIndex > n.lastIndex then
    return respond n false n.lastIndex
  if (← n.termAt prevIndex) ≠ prevTerm then
    return respond n false (prevIndex - 1)
  let n ← n.mergeEntries prevIndex 0 entries
  let matched ← Checked.add prevIndex entries.length
  let n := if leaderCommit > n.commitIndex then
    { n with commitIndex := min leaderCommit matched } else n
  return respond n true matched

def onAppendResponse (n : Node σ) (sender term : Nat) (success : Bool) (matchIndex : Nat) :
    Checked (Node σ × List Outgoing) :=
  if n.role ≠ .leader ∨ term ≠ n.term then pure (n, []) else do
    let known ← Checked.get n.matchIndex sender
    if success then
      let m := min matchIndex n.lastIndex
      let next ← Checked.add (max known m) 1
      let n := { n with
        matchIndex := n.matchIndex.set sender (max known m)
        nextIndex := ← Checked.set n.nextIndex sender next }
      let n ← n.advanceCommit
      if next ≤ n.lastIndex then pure (n, [← n.appendFor sender]) else pure (n, [])
    else
      let lowest ← Checked.add known 1
      let hint ← Checked.add matchIndex 1
      let next ← Checked.get n.nextIndex sender
      let nextIndex ← Checked.set n.nextIndex sender (max lowest (min next hint))
      let n := { n with nextIndex }
      pure (n, [← n.appendFor sender])

def handle (n : Node σ) (now sender : Nat) (msg : Message) :
    Checked (Node σ × List Outgoing) :=
  if sender = n.cfg.id ∨ sender ≥ n.cfg.clusterSize then pure (n, []) else do
    let n ← (if msg.term > n.term then n.stepDown now msg.term else pure n)
    match msg with
    | .requestVote term lastLogIndex lastLogTerm =>
      n.onRequestVote now sender term lastLogIndex lastLogTerm
    | .voteResponse term granted => n.onVoteResponse now sender term granted
    | .appendEntries term prevIndex prevTerm entries leaderCommit =>
      n.onAppendEntries now sender term prevIndex prevTerm entries leaderCommit
    | .appendResponse term success matchIndex =>
      n.onAppendResponse sender term success matchIndex

end Node

end Landsraad
