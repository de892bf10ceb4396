import Landsraad.Library.Run
import Landsraad.Raft.Node

/-!
# Clusters of nodes over an arbitrary network

The network keeps every message ever sent and may hand any of them to its recipient at any
time and any number of times, so loss, duplication, delay and reordering are all choices of
the run. A node may crash at rest, after a call whose messages are then lost, or within a call
between two of its storage writes; it restarts from the storage that is left.
-/

namespace Landsraad

structure Envelope where
  sender : Nat
  recipient : Nat
  message : Message
deriving DecidableEq, Repr

/-- A node, live or crashed. A live one carries the batches that `takeCommitted` has returned
in this incarnation, concatenated. -/
inductive Slot
  | up (node : Node Disk) (delivered : List (Nat × Entry))
  | down (disk : Disk)

def Slot.disk : Slot → Disk
  | .up n _ => n.storage
  | .down d => d

/-- An `Ok` answer of `propose`, at a node leading `term`. -/
structure Acceptance where
  node : Nat
  term : Nat
  index : Nat
  command : List UInt8
deriving DecidableEq, Repr

/-- A call in which a node became the leader of `term`, and the index of its no-op. -/
structure Election where
  node : Nat
  term : Nat
  index : Nat
deriving DecidableEq, Repr

structure System where
  slots : Nat → Slot
  sent : List Envelope
  accepted : List Acceptance
  elected : List Election

/-- Every node down with an empty storage. -/
def System.initial : System := ⟨fun _ => .down .empty, [], [], []⟩

inductive Call
  | tick (now : Nat)
  | propose (now : Nat) (command : List UInt8)
  | handle (now : Nat) (sender : Nat) (message : Message)
deriving DecidableEq, Repr

/-- The node after a call, the messages it returned and the index of an accepted proposal. -/
def Node.call {σ : Type} [Storage σ] (n : Node σ) :
    Call → Checked (Node σ × List Outgoing × Option Nat)
  | .tick now => do
    let (n, out) ← n.tick now
    pure (n, out, none)
  | .propose now command => do
    let (n, answer) ← n.propose now command
    match answer with
    | .ok (index, out) => pure (n, out, some index)
    | .error _ => pure (n, [], none)
  | .handle now sender message => do
    let (n, out) ← n.handle now sender message
    pure (n, out, none)

section

variable {σ : Type} [Storage σ] {n n' : Node σ} {now : Nat} {out : List Outgoing}
  {answer : Option Nat}

theorem Node.call_tick (h : n.tick now = .ok (n', out)) :
    n.call (.tick now) = .ok (n', out, none) := Checked.bind_eq_ok.mpr ⟨_, h, rfl⟩

theorem Node.call_handle {sender : Nat} {message : Message}
    (h : n.handle now sender message = .ok (n', out)) :
    n.call (.handle now sender message) = .ok (n', out, none) :=
  Checked.bind_eq_ok.mpr ⟨_, h, rfl⟩

theorem Node.call_tick_ok (h : n.call (.tick now) = .ok (n', out, answer)) :
    n.tick now = .ok (n', out) ∧ answer = none := by
  obtain ⟨⟨n₁, out₁⟩, ht, h⟩ := Checked.bind_eq_ok.mp h
  cases h
  exact ⟨ht, rfl⟩

theorem Node.call_propose_ok {command : List UInt8}
    (h : n.call (.propose now command) = .ok (n', out, answer)) :
    ∃ r, n.propose now command = .ok (n', r) ∧ out = (r.toOption.map Prod.snd).getD [] ∧
      answer = r.toOption.map Prod.fst := by
  obtain ⟨⟨n₁, r⟩, hp, h⟩ := Checked.bind_eq_ok.mp h
  cases r with
  | ok accepted =>
    cases h
    exact ⟨_, hp, rfl, rfl⟩
  | error e =>
    cases h
    exact ⟨_, hp, rfl, rfl⟩

theorem Node.call_handle_ok {sender : Nat} {message : Message}
    (h : n.call (.handle now sender message) = .ok (n', out, answer)) :
    n.handle now sender message = .ok (n', out) ∧ answer = none := by
  obtain ⟨⟨n₁, out₁⟩, hh, h⟩ := Checked.bind_eq_ok.mp h
  cases h
  exact ⟨hh, rfl⟩

/-- The node with no timeouts and empty batches. It writes what the node writes, and neither a
deadline nor the end of a batch overflows. -/
def Node.eased (n : Node σ) : Node σ :=
  { n with cfg := { n.cfg with electionTimeout := (0, 0), heartbeatInterval := 0, maxBatch := 0 } }

/-- The call of which a crash leaves some first writes. A call that panics has made some first
writes of the call that goes on. -/
def Node.attempt (n : Node σ) (c : Call) : Checked (Node σ × List Outgoing × Option Nat) :=
  match n.call c with
  | .ok r => .ok r
  | .error _ => n.eased.call c

theorem Node.attempt_of_ok {c : Call} {r : Node σ × List Outgoing × Option Nat}
    (h : n.call c = .ok r) : n.attempt c = .ok r := by
  rw [Node.attempt, h]

theorem Node.attempt_ok {c : Call} {r : Node σ × List Outgoing × Option Nat}
    (h : n.attempt c = .ok r) : ∃ m, (m = n ∨ m = n.eased) ∧ m.call c = .ok r := by
  unfold Node.attempt at h
  split at h
  · next hcall => exact ⟨n, .inl rfl, hcall.trans h⟩
  · exact ⟨n.eased, .inr rfl, h⟩

end

inductive Fate
  | returns
  /-- The call completes, but its messages are lost. The node after the call is also seen in
  the run where the call returns, the network loses its messages and the node crashes next. -/
  | crashesAfter
  /-- The last `lost` storage writes of the call never happen. -/
  | crashesWithin (lost : Nat)
deriving DecidableEq, Repr

inductive Action
  | call (i : Nat) (c : Call) (fate : Fate)
  | takeCommitted (i : Nat)
  | crash (i : Nat)
  | restart (i : Nat) (cfg : Config) (now : Nat)

/-- The action does not crash a node inside a call. -/
def Action.Whole : Action → Prop
  | .call _ _ (.crashesWithin _) => False
  | _ => True

namespace System

/-- Only a message that was sent to `i` can be handed to it. -/
def Deliverable (s : System) (i : Nat) : Call → Prop
  | .handle _ sender message => ⟨sender, i, message⟩ ∈ s.sent
  | _ => True

instance (s : System) (i : Nat) (c : Call) : Decidable (s.Deliverable i c) := by
  cases c <;> unfold Deliverable <;> infer_instance

def setSlot (s : System) (i : Nat) (slot : Slot) : System :=
  { s with slots := Function.update s.slots i slot }

def send (s : System) (i : Nat) (out : List Outgoing) : System :=
  { s with sent := s.sent ++ out.map fun o => ⟨i, o.recipient, o.message⟩ }

/-- Records what a completed call of `i` let be seen: an accepted proposal, a won election. -/
def observe (s : System) (i : Nat) (before after : Node Disk) (c : Call)
    (answer : Option Nat) : System :=
  { s with
    accepted := match c, answer with
      | .propose _ command, some index => s.accepted ++ [⟨i, after.term, index, command⟩]
      | _, _ => s.accepted
    elected := if after.role = .leader ∧ ¬ (before.role = .leader ∧ before.term = after.term) then
        s.elected ++ [⟨i, after.term, after.lastIndex⟩]
      else s.elected }

/-- How many storage writes lie between two states of a node's storage. -/
def writesBetween (d d' : Disk) : Nat := d'.earlier.length - d.earlier.length

def performCall (s : System) (i : Nat) (c : Call) (fate : Fate) : Option System :=
  match s.slots i with
  | .down _ => none
  | .up n delivered =>
    if s.Deliverable i c then
      match fate with
      | .crashesWithin lost =>
        match n.attempt c with
        | .error _ => none
        | .ok (n', _, _) =>
          if lost ≤ writesBetween n.storage n'.storage then
            some (s.setSlot i (.down (n'.storage.rewind lost)))
          else none
      | .crashesAfter =>
        match n.call c with
        | .error _ => none
        | .ok (n', _, answer) => some ((s.observe i n n' c answer).setSlot i (.down n'.storage))
      | .returns =>
        match n.call c with
        | .error _ => none
        | .ok (n', out, answer) =>
          some (((s.observe i n n' c answer).send i out).setSlot i (.up n' delivered))
    else none

/-- One action in a cluster of `size` nodes. -/
def perform (size : Nat) (s : System) : Action → Option System
  | .call i c fate => s.performCall i c fate
  | .takeCommitted i =>
    match s.slots i with
    | .down _ => none
    | .up n delivered =>
      match n.takeCommitted with
      | .error _ => none
      | .ok (n', batch) => some (s.setSlot i (.up n' (delivered ++ batch)))
  | .crash i =>
    match s.slots i with
    | .down _ => none
    | .up n _ => some (s.setSlot i (.down n.storage))
  | .restart i cfg now =>
    match s.slots i with
    | .up _ _ => none
    | .down d =>
      if cfg.id = i ∧ cfg.clusterSize = size then
        match Node.new cfg d now with
        | .error _ => none
        | .ok n => some (s.setSlot i (.up n []))
      else none

/-- The run of a cluster of `size` nodes through `actions`. -/
def run (size : Nat) (s : System) (actions : List Action) : Option System :=
  Run.exec (perform size) s actions

/-- `s` and `s'` are states of one run from the empty cluster, `s` no later than `s'`. -/
def Moments (size : Nat) (s s' : System) : Prop :=
  ∃ before after, initial.run size before = some s ∧ s.run size after = some s'

/-- The live node at `i`. -/
def node (s : System) (i : Nat) : Option (Node Disk) :=
  match s.slots i with
  | .up n _ => some n
  | .down _ => none

/-- `l` is the log of a live node or of a storage. -/
def HasLog (s : System) (l : List Entry) : Prop :=
  (∃ i n, s.node i = some n ∧ n.log = l) ∨ ∃ i, (s.slots i).disk.current.log = l

/-! ## What an action that was possible has done -/

section

variable {size i : Nat} {s s' : System}

theorem performCall_ok {c : Call} {fate : Fate} (h : s.performCall i c fate = some s') :
    ∃ n delivered m n' out answer, s.slots i = .up n delivered ∧ s.Deliverable i c ∧
      (m = n ∨ m = n.eased) ∧ m.call c = .ok (n', out, answer) ∧
      ((fate = .returns ∧ m = n ∧
          s' = ((s.observe i n n' c answer).send i out).setSlot i (.up n' delivered)) ∨
        (fate = .crashesAfter ∧ m = n ∧
          s' = (s.observe i n n' c answer).setSlot i (.down n'.storage)) ∨
        ∃ lost, fate = .crashesWithin lost ∧ lost ≤ writesBetween n.storage n'.storage ∧
          s' = s.setSlot i (.down (n'.storage.rewind lost))) := by
  unfold performCall at h
  split at h
  · cases h
  next n delivered hslot =>
  split at h
  swap
  · cases h
  next hdeliv =>
  cases fate with
  | returns =>
    dsimp only at h
    split at h <;> cases h
    next n' out answer hcall =>
    exact ⟨n, delivered, n, n', out, answer, hslot, hdeliv, .inl rfl, hcall, .inl ⟨rfl, rfl, rfl⟩⟩
  | crashesAfter =>
    dsimp only at h
    split at h <;> cases h
    next n' out answer hcall =>
    exact ⟨n, delivered, n, n', out, answer, hslot, hdeliv, .inl rfl, hcall,
      .inr (.inl ⟨rfl, rfl, rfl⟩)⟩
  | crashesWithin lost =>
    dsimp only at h
    split at h
    · cases h
    next n' out answer hattempt =>
    split at h <;> cases h
    next hlost =>
    obtain ⟨m, hm, hcall⟩ := Node.attempt_ok hattempt
    exact ⟨n, delivered, m, n', out, answer, hslot, hdeliv, hm, hcall,
      .inr (.inr ⟨lost, rfl, hlost, rfl⟩)⟩

theorem perform_takeCommitted_ok (h : s.perform size (.takeCommitted i) = some s') :
    ∃ n delivered n' batch, s.slots i = .up n delivered ∧ n.takeCommitted = .ok (n', batch) ∧
      s' = s.setSlot i (.up n' (delivered ++ batch)) := by
  simp only [perform] at h
  split at h
  · cases h
  next n delivered hslot =>
  split at h
  · cases h
  next n' batch htake =>
  cases h
  exact ⟨n, delivered, n', batch, hslot, htake, rfl⟩

theorem perform_crash_ok (h : s.perform size (.crash i) = some s') :
    ∃ n delivered, s.slots i = .up n delivered ∧ s' = s.setSlot i (.down n.storage) := by
  simp only [perform] at h
  split at h
  · cases h
  next n delivered hslot =>
  cases h
  exact ⟨n, delivered, hslot, rfl⟩

theorem perform_restart_ok {cfg : Config} {now : Nat}
    (h : s.perform size (.restart i cfg now) = some s') :
    ∃ d n, s.slots i = .down d ∧ cfg.id = i ∧ cfg.clusterSize = size ∧
      Node.new cfg d now = .ok n ∧ s' = s.setSlot i (.up n []) := by
  simp only [perform] at h
  split at h
  · cases h
  next d hslot =>
  split at h
  swap
  · cases h
  next hcfg =>
  split at h
  · cases h
  next n hnew =>
  cases h
  exact ⟨d, n, hslot, hcfg.1, hcfg.2, hnew, rfl⟩

end

/-! ## A run of three nodes -/

/-- A node of three without random timeouts that sends one entry at a time. -/
def eager (id : Nat) : Config := ⟨id, 3, (1, 1), 1, 1, 0⟩

/-- Node 0 wins term 1 with the vote of node 1. -/
def opening : List Action :=
  [.restart 0 (eager 0) 0, .restart 1 (eager 1) 0, .restart 2 (eager 2) 0,
    .call 0 (.tick 1) .returns,
    .call 1 (.handle 1 0 (.requestVote 1 0 0)) .returns,
    .call 0 (.handle 1 1 (.voteResponse 1 true)) .returns]

/-- Node 0 commits its no-op with the help of node 1 and accepts a proposal. -/
def reigning : List Action :=
  [.call 1 (.handle 1 0 (.appendEntries 1 0 0 [⟨1, []⟩] 0)) .returns,
    .call 0 (.handle 1 1 (.appendResponse 1 true 1)) .returns,
    .call 0 (.propose 1 [7]) .returns]

/-- Node 1 receives the proposal and wins term 2 with the vote of node 0. -/
def succession : List Action :=
  [.call 1 (.handle 2 0 (.appendEntries 1 1 1 [⟨1, [7]⟩] 1)) .returns,
    .call 1 (.tick 3) .returns,
    .call 0 (.handle 3 1 (.requestVote 2 2 1)) .returns,
    .call 1 (.handle 3 0 (.voteResponse 2 true)) .returns]

def opened : System := (initial.run 3 opening).get (by decide +kernel)

def reigned : System := (opened.run 3 reigning).get (by decide +kernel)

def succeeded : System := (reigned.run 3 succession).get (by decide +kernel)

theorem run_opening : initial.run 3 opening = some opened := (Option.some_get _).symm

theorem run_reigning : opened.run 3 reigning = some reigned := (Option.some_get _).symm

theorem run_succession : reigned.run 3 succession = some succeeded := (Option.some_get _).symm

theorem run_reigned : initial.run 3 (opening ++ reigning) = some reigned :=
  Run.exec_append_eq_some.mpr ⟨opened, run_opening, run_reigning⟩

theorem moments_opened_reigned : Moments 3 opened reigned :=
  ⟨opening, reigning, run_opening, run_reigning⟩

theorem moments_reigned_succeeded : Moments 3 reigned succeeded :=
  ⟨opening ++ reigning, succession, run_reigned, run_succession⟩

def newLeader : Node Disk := (opened.node 0).get (by decide +kernel)

def firstLeader : Node Disk := (reigned.node 0).get (by decide +kernel)

def secondLeader : Node Disk := (succeeded.node 1).get (by decide +kernel)

theorem node_newLeader : opened.node 0 = some newLeader := (Option.some_get _).symm

theorem node_firstLeader : reigned.node 0 = some firstLeader := (Option.some_get _).symm

theorem node_secondLeader : succeeded.node 1 = some secondLeader := (Option.some_get _).symm

end System

end Landsraad
