import Landsraad.Raft.Codec
import Landsraad.Raft.System

/-!
# The simulated cluster

A cluster of nodes over one channel per ordered pair, driven tick by tick with injected faults
and checked after every tick. What a node sends travels as the bytes of a datagram. A draw of the
random generator is an input of the step that makes it. A call that panics returns the panic; a
violation that the checker reports is a result.
-/

namespace Landsraad

/-- One direction of a link, and the frames of its datagrams. `advance` moves its clock to a tick
and hands out the datagrams that arrive then. -/
class Channel (χ : Type) where
  Error : Type
  codec : FrameCodec Error
  new : UInt64 → χ
  send : χ → List UInt8 → χ
  advance : χ → Nat → χ × List (List UInt8)

/-- The frames that the datagrams of a link are. -/
abbrev Channel.frames (χ : Type) [link : Channel χ] : FrameCodec link.Error := link.codec

/-- Which injected events have a positive probability. -/
structure Faults where
  crash : Bool
  restart : Bool
  partition : Bool
  heal : Bool
  crashAfterEvent : Bool
  propose : Bool
deriving DecidableEq, Repr

def Faults.none : Faults := ⟨false, false, false, false, false, false⟩

structure ClusterConfig where
  n : Nat
  seed : UInt64
  faults : Faults
  electionTimeout : Nat × Nat
  heartbeatInterval : Nat

structure Violation where
  tick : Nat
  what : String
deriving DecidableEq, Repr

/-- The random draws of one step. A draw for a node is reduced modulo the cluster size. -/
structure Draws where
  crash : Bool
  crashed : Nat
  restart : Bool
  restarted : Nat
  partition : Bool
  side : Nat → Bool
  heal : Bool
  propose : Bool
  /-- Whether the node crashes after handling the arrival at this position. -/
  crashAfterEvent : Nat → Bool

structure Cluster (χ : Type) where
  cfg : ClusterConfig
  now : Nat
  links : Nat → Nat → χ
  blocked : Nat → Nat → Bool
  nodes : Nat → Option (Node Disk)
  /-- The storage of a crashed node; a live node holds the storage it writes to. -/
  disks : Nat → Disk
  nextCommand : UInt64
  leadersByTerm : Nat → Option Nat
  committed : List Entry
  maxCommitSeen : Nat → Nat
  maxTermSeen : Nat → Nat

namespace Cluster

variable {χ : Type}

/-- A cluster after a call, and the violation the call reported. -/
abbrev Checkpoint (χ : Type) := Cluster χ × Except Violation Unit

/-- Goes on after a call unless it reported a violation. -/
def proceed (r : Checkpoint χ) (f : Cluster χ → Checked (Checkpoint χ)) : Checked (Checkpoint χ) :=
  match r with
  | (c, .ok ()) => f c
  | (c, .error v) => .ok (c, .error v)

def violation (c : Cluster χ) (what : String) : Violation := ⟨c.now, what⟩

def setNode (c : Cluster χ) (i : Nat) (n : Option (Node Disk)) : Cluster χ :=
  { c with nodes := Function.update c.nodes i n }

def boot (c : Cluster χ) (i : Nat) : Checked (Cluster χ) := do
  let cfg := { Config.new i c.cfg.n c.cfg.seed with
    electionTimeout := c.cfg.electionTimeout
    heartbeatInterval := c.cfg.heartbeatInterval }
  let n ← Node.new cfg (c.disks i) c.now
  pure (c.setNode i (some n))

def bootAll : List Nat → Cluster χ → Checked (Cluster χ)
  | [], c => pure c
  | i :: is, c => do bootAll is (← c.boot i)

def new [Channel χ] (cfg : ClusterConfig) : Checked (Cluster χ) :=
  bootAll (List.range cfg.n)
    { cfg
      now := 0
      links := fun sender recipient => Channel.new
        (cfg.seed ^^^ (UInt64.ofNat (sender * cfg.n + recipient) + 1) * 0xD6E8FEB86659FD93)
      blocked := fun _ _ => false
      nodes := fun _ => none
      disks := fun _ => .empty
      nextCommand := 0
      leadersByTerm := fun _ => none
      committed := []
      maxCommitSeen := fun _ => 0
      maxTermSeen := fun _ => 0 }

/-- The live leader of the highest term among the nodes, the last one if several tie. -/
def leaderAmong (c : Cluster χ) : List Nat → Option (Node Disk) → Option (Node Disk)
  | [], best => best
  | i :: is, best =>
    match c.nodes i, best with
    | none, _ => c.leaderAmong is best
    | some n, none => c.leaderAmong is (if n.role = .leader then some n else none)
    | some n, some b =>
      c.leaderAmong is (if n.role = .leader ∧ b.term ≤ n.term then some n else some b)

def leader (c : Cluster χ) : Option Nat :=
  (c.leaderAmong (List.range c.cfg.n) none).map fun n => n.cfg.id

def crash (c : Cluster χ) (i : Nat) : Cluster χ :=
  match c.nodes i with
  | none => c
  | some n => { c.setNode i none with disks := Function.update c.disks i n.storage }

/-- Boots a crashed node and checks that its log holds everything it had committed. -/
def restart (c : Cluster χ) (i : Nat) : Checked (Checkpoint χ) :=
  match c.nodes i with
  | some _ => pure (c, .ok ())
  | none => do
    let c ← c.boot i
    match c.nodes i with
    | none => .error (.failStop "called `Option::unwrap()` on a `None` value")
    | some n =>
      let seen := c.maxCommitSeen i
      let known := min seen c.committed.length
      if n.log.length < known ∨ n.log.take known ≠ c.committed.take known then
        pure (c, .error (c.violation
          s!"node {i} lost committed entries across a crash (had commit index {seen})"))
      else pure (c, .ok ())

/-- `side i` says which side node `i` is on. -/
def partition (c : Cluster χ) (side : Nat → Bool) : Cluster χ :=
  { c with blocked := fun a b => decide (a ≠ b) && decide (side a ≠ side b) }

def isolate (c : Cluster χ) (i : Nat) : Cluster χ := c.partition fun j => decide (j = i)

def heal (c : Cluster χ) : Cluster χ := { c with blocked := fun _ _ => false }

def restartAll : List Nat → Cluster χ → Checked (Checkpoint χ)
  | [], c => pure (c, .ok ())
  | i :: is, c => do proceed (← c.restart i) (restartAll is)

/-- Ends all injected faults and restarts every crashed node. -/
def quiesce (c : Cluster χ) : Checked (Checkpoint χ) :=
  restartAll (List.range c.cfg.n) ({ c with cfg := { c.cfg with faults := .none } }.heal)

/-- What a call of a node returns. A vector has a length of type `usize`: a call that makes the
log longer panics. -/
def sized {α : Type} (r : Checked (Node Disk × α)) : Checked (Node Disk × α) := do
  let (n, a) ← r
  if n.log.length < Checked.wordSize then pure (n, a)
  else .error (.failStop "capacity overflow")

variable [Channel χ]

def route (c : Cluster χ) (sender : Nat) : List Outgoing → Cluster χ
  | [] => c
  | o :: rest =>
    if c.blocked sender o.recipient then c.route sender rest
    else
      let datagram := encodeMessage (Channel.frames χ) o.message
      let link := Channel.send (c.links sender o.recipient) datagram
      let links := Function.update (c.links sender) o.recipient link
      { c with links := Function.update c.links sender links }.route sender rest

/-- Submits a command to the live leader of the highest term. -/
def propose (c : Cluster χ) (command : List UInt8) :
    Checked (Cluster χ × Except ProposeError (Nat × Nat)) :=
  match c.leader with
  | none => pure (c, .error (.notLeader none))
  | some l =>
    match c.nodes l with
    | none => .error (.failStop "called `Option::unwrap()` on a `None` value")
    | some n => do
      let (n, answer) ← sized (n.propose c.now command)
      let c := c.setNode l (some n)
      match answer with
      | .error e => pure (c, .error e)
      | .ok (index, out) => pure (c.route l out, .ok (l, index))

/-- Advances every link's clock; the arrivals of all links in the order of sender and recipient. -/
def advanceLinks (c : Cluster χ) : Cluster χ × List (Nat × Nat × List UInt8) :=
  let ids := List.range c.cfg.n
  let moved := fun sender recipient => Channel.advance (c.links sender recipient) c.now
  ({ c with links := fun sender recipient =>
      if sender < c.cfg.n ∧ recipient < c.cfg.n ∧ sender ≠ recipient then
        (moved sender recipient).1
      else c.links sender recipient },
    ids.flatMap fun sender => ids.flatMap fun recipient =>
      if sender ≠ recipient then
        (moved sender recipient).2.map fun datagram => (sender, recipient, datagram)
      else [])

/-- Handles the arrivals in order; the first one is at position `k` of the step. What the codec
rejects is dropped. -/
def deliver (f : Faults) (d : Draws) : Nat → List (Nat × Nat × List UInt8) → Cluster χ →
    Checked (Cluster χ)
  | _, [], c => pure c
  | k, (sender, recipient, datagram) :: rest, c =>
    match c.nodes recipient with
    | none => deliver f d (k + 1) rest c
    | some n => do
      match ← decodeMessage (Channel.frames χ) datagram with
      | .error _ => deliver f d (k + 1) rest c
      | .ok msg =>
        let (n, out) ← sized (n.handle c.now sender msg)
        let c := c.setNode recipient (some n)
        deliver f d (k + 1) rest
          (if f.crashAfterEvent && d.crashAfterEvent k then c.crash recipient
            else c.route recipient out)

def timers : List Nat → Cluster χ → Checked (Cluster χ)
  | [], c => pure c
  | i :: is, c =>
    match c.nodes i with
    | none => timers is c
    | some n => do
      let (n, out) ← sized (n.tick c.now)
      timers is ((c.setNode i (some n)).route i out)

/-! ## The invariant checker -/

/-- Runs a check for each node until one reports a violation. -/
def eachNode (check : Nat → Cluster χ → Checkpoint χ) : List Nat → Cluster χ → Checkpoint χ
  | [], c => (c, .ok ())
  | i :: is, c =>
    match check i c with
    | (c, .ok ()) => eachNode check is c
    | (c, .error v) => (c, .error v)

/-- Terms never go backwards, and a term has at most one leader. -/
def checkTerm (i : Nat) (c : Cluster χ) : Checkpoint χ :=
  match c.nodes i with
  | none => (c, .ok ())
  | some n =>
    if n.term < c.maxTermSeen i then
      (c, .error (c.violation s!"node {i} term went backwards: {c.maxTermSeen i} -> {n.term}"))
    else
      let c := { c with maxTermSeen := Function.update c.maxTermSeen i n.term }
      if n.role = .leader then
        let prev := (c.leadersByTerm n.term).getD i
        let c := { c with leadersByTerm := Function.update c.leadersByTerm n.term (some prev) }
        if prev ≠ i then
          (c, .error (c.violation
            s!"election safety: nodes {prev} and {i} both lead term {n.term}"))
        else (c, .ok ())
      else (c, .ok ())

/-- Compares committed entries, the first at position `k`, with those already seen and appends
what is new; the position of the first difference if there is one. -/
def mergeCommitted : List Entry → Nat → List Entry → Except Nat (List Entry)
  | committed, _, [] => .ok committed
  | committed, k, e :: rest =>
    match committed[k]? with
    | some x => if x ≠ e then .error k else mergeCommitted committed (k + 1) rest
    | none => mergeCommitted (committed ++ [e]) (k + 1) rest

/-- Every node's committed prefix agrees with the committed log seen so far. -/
def checkCommitted (i : Nat) (c : Cluster χ) : Checkpoint χ :=
  match c.nodes i with
  | none => (c, .ok ())
  | some n =>
    if n.commitIndex > n.log.length then
      (c, .error (c.violation s!"node {i} commit index beyond its log"))
    else
      match mergeCommitted c.committed 0 (n.log.take n.commitIndex) with
      | .error k => (c, .error (c.violation
          s!"state machine safety: node {i} committed a different entry at index {k + 1}"))
      | .ok committed =>
        ({ c with
            committed
            maxCommitSeen :=
              Function.update c.maxCommitSeen i (max (c.maxCommitSeen i) n.commitIndex) }, .ok ())

/-- The first of the committed entries, up to one of the leader's own term or later, that the
leader's log does not hold. -/
def lacking (term : Nat) (log : List Entry) : Nat → List Entry → Option Nat
  | _, [] => none
  | k, e :: rest =>
    if e.term ≥ term then none
    else if log[k]? ≠ some e then some k
    else lacking term log (k + 1) rest

/-- A leader's log holds every committed entry of an earlier term. -/
def checkLeader (i : Nat) (c : Cluster χ) : Checkpoint χ :=
  match c.nodes i with
  | none => (c, .ok ())
  | some n =>
    if n.role ≠ .leader then (c, .ok ())
    else
      match lacking n.term n.log 0 c.committed with
      | none => (c, .ok ())
      | some k => (c, .error (c.violation
          s!"leader completeness: leader {i} (term {n.term}) lacks committed entry {k + 1}"))

/-- The last position below `m` at which two logs have the same term. -/
def lastSameTerm (la lb : List Entry) : Nat → Option Nat
  | 0 => none
  | m + 1 =>
    if la[m]?.map Entry.term = lb[m]?.map Entry.term then some m else lastSameTerm la lb m

/-- The same index and term implies identical prefixes. -/
def checkMatching (a b : Nat) (c : Cluster χ) : Checkpoint χ :=
  match c.nodes a, c.nodes b with
  | some x, some y =>
    match lastSameTerm x.log y.log (min x.log.length y.log.length) with
    | none => (c, .ok ())
    | some i =>
      if x.log.take (i + 1) ≠ y.log.take (i + 1) then
        (c, .error (c.violation
          s!"log matching: nodes {a} and {b} agree on term at index {i + 1} but differ before it"))
      else (c, .ok ())
  | _, _ => (c, .ok ())

def checkInvariants (c : Cluster χ) : Checkpoint χ :=
  let ids := List.range c.cfg.n
  let later := fun a => ids.drop (a + 1)
  match eachNode checkTerm ids c with
  | (c, .error v) => (c, .error v)
  | (c, .ok ()) =>
    match eachNode checkCommitted ids c with
    | (c, .error v) => (c, .error v)
    | (c, .ok ()) =>
      match eachNode checkLeader ids c with
      | (c, .error v) => (c, .error v)
      | (c, .ok ()) => eachNode (fun a => eachNode (checkMatching a) (later a)) ids c

/-! ## One tick -/

/-- The node that a draw selects. -/
def below (draw n : Nat) : Checked Nat :=
  if n = 0 then
    .error (.failStop "attempt to calculate the remainder with a divisor of zero")
  else .ok (draw % n)

/-- The injected crash, and the injected restart, which may report a violation. -/
def injectCrashes (c : Cluster χ) (f : Faults) (d : Draws) : Checked (Checkpoint χ) := do
  let c ← (if f.crash && d.crash then c.crash <$> below d.crashed c.cfg.n else pure c)
  if f.restart && d.restart then c.restart (← below d.restarted c.cfg.n) else pure (c, .ok ())

/-- The injected changes of the network and the injected proposal. -/
def injectRest (c : Cluster χ) (f : Faults) (d : Draws) : Checked (Cluster χ) :=
  let c := if f.partition && d.partition then c.partition d.side else c
  let c := if f.heal && d.heal then c.heal else c
  if f.propose && d.propose then do
    let (c, answer) ← c.propose (s!"cmd{c.nextCommand}").toUTF8.toList
    match answer with
    | .ok _ => do
      let count ← Checked.add c.nextCommand.toNat 1
      pure { c with nextCommand := UInt64.ofNat count }
    | .error _ => pure c
  else pure c

/-- Every link's clock advances before any arrival is handled, so that a reply is stamped with
the present tick. The timers run last. -/
def exchange (c : Cluster χ) (f : Faults) (d : Draws) : Checked (Cluster χ) := do
  let (c, arrivals) := c.advanceLinks
  let c ← deliver f d 0 arrivals c
  timers (List.range c.cfg.n) c

/-- Everything a step does before it checks the invariants. -/
def advance (c : Cluster χ) (d : Draws) : Checked (Checkpoint χ) := do
  let now ← Checked.add c.now 1
  let f := c.cfg.faults
  proceed (← { c with now }.injectCrashes f d) fun c => do
    let c ← c.injectRest f d
    let c ← c.exchange f d
    pure (c, .ok ())

def step (c : Cluster χ) (d : Draws) : Checked (Checkpoint χ) := do
  proceed (← c.advance d) fun c => pure c.checkInvariants

end Cluster

/-- A call of a test or of the chaos driver. -/
inductive Op
  | step (d : Draws)
  | crash (i : Nat)
  | restart (i : Nat)
  | partition (side : Nat → Bool)
  | isolate (i : Nat)
  | heal
  | propose (command : List UInt8)
  | quiesce

namespace Cluster

variable {χ : Type} [Channel χ]

/-- The cluster after a call and what the call returned. A node id out of range panics. -/
def apply (c : Cluster χ) : Op → Checked (Checkpoint χ)
  | .step d => c.step d
  | .crash i => if i < c.cfg.n then pure (c.crash i, .ok ()) else .error .outOfRange
  | .restart i => if i < c.cfg.n then c.restart i else .error .outOfRange
  | .partition side => pure (c.partition side, .ok ())
  | .isolate i => if i < c.cfg.n then pure (c.isolate i, .ok ()) else .error .outOfRange
  | .heal => pure (c.heal, .ok ())
  | .propose command => do
    let (c, _) ← c.propose command
    pure (c, .ok ())
  | .quiesce => c.quiesce

end Cluster

end Landsraad
