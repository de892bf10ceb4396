import Landsraad.Raft.Safety

/-!
# Commit index and delivery within one incarnation

Every call raises the commit index or leaves it, with one exception: an accepted AppendEntries
that verifies the log to an index below the commit index but carries a higher leader commit
pulls it back. Where it falls below the applied index, `takeCommitted` may return an index a
second time.
-/

namespace Landsraad

open ReplicatedLog ReplicatedLog.Ledger Run

variable {size i : Nat} {n n' : Node Disk} {now : Nat} {out : List Outgoing}

namespace Node

/-- The call keeps the applied index and does not lower the commit index. -/
structure Advances (n n' : Node Disk) : Prop where
  applied : n'.appliedIndex = n.appliedIndex
  commit : n.commitIndex ≤ n'.commitIndex

theorem Advances.refl (n : Node Disk) : Advances n n := ⟨rfl, le_rfl⟩

theorem becomeLeader_advances (h : n.becomeLeader now = .ok (n', out)) : Advances n n' := by
  obtain ⟨c, deadline, rfl, hc, _⟩ := becomeLeader_ok h
  exact ⟨rfl, hc.le⟩

theorem startElection_advances (h : n.startElection now = .ok (n', out)) : Advances n n' := by
  obtain ⟨deadline, rng, _, ⟨_, hl⟩ | ⟨rfl, _⟩⟩ := startElection_ok h
  · have ha := becomeLeader_advances hl
    exact ⟨ha.applied, ha.commit⟩
  · exact ⟨rfl, le_rfl⟩

theorem tick_advances (h : n.tick now = .ok (n', out)) : Advances n n' := by
  rcases tick_ok h with ⟨rfl, _⟩ | ⟨_, _, rfl, _⟩ | ⟨_, hs⟩
  · exact .refl _
  · exact ⟨rfl, le_rfl⟩
  · exact startElection_advances hs

theorem propose_advances {command : List UInt8}
    {answer : Except ProposeError (Nat × List Outgoing)}
    (h : n.propose now command = .ok (n', answer)) : Advances n n' := by
  rcases propose_ok h with ⟨_, rfl, _⟩ | ⟨_, c, out, rfl, hc, _⟩
  · exact .refl _
  · exact ⟨rfl, hc.le⟩

theorem onRequestVote_advances {sender term lastLogIndex lastLogTerm : Nat}
    (h : n.onRequestVote now sender term lastLogIndex lastLogTerm = .ok (n', out)) :
    Advances n n' := by
  rcases onRequestVote_ok h with ⟨rfl, _⟩ | ⟨_, _, _, _, _, _, rfl⟩
  · exact .refl _
  · exact ⟨rfl, le_rfl⟩

theorem onVoteResponse_advances {sender term : Nat} {granted : Bool}
    (h : n.onVoteResponse now sender term granted = .ok (n', out)) : Advances n n' := by
  rcases onVoteResponse_ok h with ⟨rfl, _⟩ | ⟨_, _, _, _, ⟨_, hl⟩ | ⟨rfl, _⟩⟩
  · exact .refl _
  · have ha := becomeLeader_advances hl
    exact ⟨ha.applied, ha.commit⟩
  · exact ⟨rfl, le_rfl⟩

theorem onAppendResponse_advances {sender term matchIndex : Nat} {success : Bool}
    (h : n.onAppendResponse sender term success matchIndex = .ok (n', out)) : Advances n n' := by
  rcases onAppendResponse_ok h with ⟨_, rfl, _⟩ |
    ⟨_, _, known, _, ⟨_, hcommit, _⟩ | ⟨_, _, _, _, rfl, _⟩⟩
  · exact .refl _
  · obtain ⟨c, rfl, hc⟩ := advanceCommit_ok hcommit
    exact ⟨rfl, hc.le⟩
  · exact ⟨rfl, le_rfl⟩

theorem mergeEntries_indices {prevIndex k : Nat} {entries : List Entry}
    (h : n.mergeEntries prevIndex k entries = .ok n') (hpos : prevIndex + k ≤ n.log.length) :
    n'.appliedIndex = n.appliedIndex ∧ n'.commitIndex = n.commitIndex := by
  rcases mergeEntries_ok hpos h with ⟨rfl, _⟩ | ⟨j, e, _, _, _, _, rfl⟩
  · exact ⟨rfl, rfl⟩
  · unfold spliced
    split <;> exact ⟨rfl, rfl⟩

/-- The AppendEntries is accepted, verifies the log only to an index below `k`, and carries a
leader commit above the commit index. -/
def PullsBelow (n : Node Disk) (k sender : Nat) : Message → Prop
  | .appendEntries term prevIndex prevTerm entries leaderCommit =>
    sender ≠ n.cfg.id ∧ sender < n.cfg.clusterSize ∧ n.term ≤ term ∧ prevIndex ≤ n.lastIndex ∧
      n.termAt prevIndex = .ok prevTerm ∧ prevIndex + entries.length < k ∧
      n.commitIndex < leaderCommit
  | _ => False

instance (k sender : Nat) : DecidablePred (n.PullsBelow k sender)
  | .appendEntries .. => inferInstanceAs (Decidable (_ ∧ _ ∧ _ ∧ _ ∧ _ ∧ _ ∧ _))
  | .requestVote .. | .voteResponse .. | .appendResponse .. => .isFalse id

/-- The message pulls the commit index back. -/
def PullsBack (n : Node Disk) (sender : Nat) (msg : Message) : Prop :=
  n.PullsBelow n.commitIndex sender msg

/-- The message pulls the commit index back to an index below what was already applied. -/
def Undercuts (n : Node Disk) (sender : Nat) (msg : Message) : Prop :=
  n.PullsBelow n.appliedIndex sender msg

instance (sender : Nat) : DecidablePred (n.Undercuts sender) :=
  inferInstanceAs (DecidablePred (n.PullsBelow n.appliedIndex sender))

/-- The call keeps the applied index, and the commit index falls below an index that it had
reached exactly when `Falls` says so. -/
structure Shifts (n n' : Node Disk) (Falls : Nat → Prop) : Prop where
  applied : n'.appliedIndex = n.appliedIndex
  falls : ∀ k ≤ n.commitIndex, n'.commitIndex < k ↔ Falls k

theorem Advances.shifts {Falls : Nat → Prop} (h : Advances n n') (hnot : ∀ k, ¬ Falls k) :
    Shifts n n' Falls where
  applied := h.applied
  falls k hk := iff_of_false (Nat.not_lt.mpr (hk.trans h.commit)) (hnot k)

theorem Shifts.congr {Falls Falls' : Nat → Prop} (h : Shifts n n' Falls)
    (hiff : ∀ k, Falls k ↔ Falls' k) : Shifts n n' Falls' :=
  ⟨h.applied, fun k hk => (h.falls k hk).trans (hiff k)⟩

theorem onAppendEntries_shifts {sender term prevIndex prevTerm leaderCommit : Nat}
    {entries : List Entry}
    (h : n.onAppendEntries now sender term prevIndex prevTerm entries leaderCommit =
      .ok (n', out)) :
    Shifts n n' fun k => n.term ≤ term ∧ prevIndex ≤ n.lastIndex ∧
      TermAt n.log prevIndex prevTerm ∧ prevIndex + entries.length < k ∧
      n.commitIndex < leaderCommit := by
  rcases onAppendEntries_ok h with ⟨hlt, rfl, _⟩ | ⟨hle, _, deadline, rng, hcase⟩
  · exact (Advances.refl _).shifts fun k hc => absurd hc.1 (Nat.not_le.mpr hlt)
  rcases hcase with ⟨hreject, rfl, _⟩ | ⟨hprev, hterm, m, hm, rfl, _⟩
  · have hkept : Advances n (n.following sender deadline rng) := ⟨rfl, le_rfl⟩
    exact hkept.shifts fun k hc => hreject ⟨hc.2.1, hc.2.2.1⟩
  obtain ⟨happlied, hcommit⟩ := mergeEntries_indices hm
    (by simpa [following, lastIndex] using hprev)
  have happlied' : m.appliedIndex = n.appliedIndex := happlied
  have hcommit' : m.commitIndex = n.commitIndex := hcommit
  have hprev' : prevIndex ≤ n.lastIndex := hprev
  have hterm' : TermAt n.log prevIndex prevTerm := hterm
  unfold committing
  split
  · next hlt =>
    refine ⟨happlied', fun k hk => ?_⟩
    simp only [hle, hprev', hterm', true_and]
    rw [hcommit'] at hlt
    omega
  · next hge =>
    rw [hcommit'] at hge
    refine ⟨happlied', fun k hk => iff_of_false ?_ fun hc => hge hc.2.2.2.2⟩
    omega

theorem receive_shifts {sender : Nat} {msg : Message} (hne : sender ≠ n.cfg.id)
    (hlt : sender < n.cfg.clusterSize) (h : n.receive now sender msg = .ok (n', out)) :
    Shifts n n' fun k => n.PullsBelow k sender msg := by
  cases msg with
  | requestVote term lastLogIndex lastLogTerm =>
    exact (onRequestVote_advances h).shifts fun k => id
  | voteResponse term granted => exact (onVoteResponse_advances h).shifts fun k => id
  | appendEntries term prevIndex prevTerm entries leaderCommit =>
    apply (onAppendEntries_shifts h).congr
    simp [PullsBelow, hne, hlt, termAt_eq_ok]
  | appendResponse term success matchIndex =>
    exact (onAppendResponse_advances h).shifts fun k => id

/-- A handler takes the commit index below an index it had reached exactly when the message
pulls it below that index. -/
theorem handle_shifts {sender : Nat} {msg : Message}
    (h : n.handle now sender msg = .ok (n', out)) :
    Shifts n n' fun k => n.PullsBelow k sender msg := by
  have hguard : ∀ k, n.PullsBelow k sender msg →
      sender ≠ n.cfg.id ∧ sender < n.cfg.clusterSize := by
    intro k
    cases msg <;> first | exact False.elim | exact fun hp => ⟨hp.1, hp.2.1⟩
  rcases handle_ok h with ⟨hcond, rfl, _⟩ | ⟨hne, hlt, ⟨_, hr⟩ | ⟨hgt, f, hf, hr⟩⟩
  · refine (Advances.refl _).shifts fun k hp => ?_
    have hg := hguard k hp
    exact hcond.elim hg.1 (Nat.not_le.mpr hg.2)
  · exact receive_shifts hne hlt hr
  · -- adopting the later term changes neither the log nor an index
    obtain ⟨deadline, rng, rfl⟩ := stepDown_ok hf
    obtain ⟨happlied, hfalls⟩ := receive_shifts (by exact hne) (by exact hlt) hr
    refine ⟨happlied, fun k hk => (hfalls k hk).trans ?_⟩
    cases msg with
    | appendEntries term prevIndex prevTerm entries leaderCommit =>
      have hle : n.term ≤ term := Nat.le_of_lt hgt
      simp only [PullsBelow, lastIndex, termAt, hle, Message.term, le_refl, true_and]
    | _ => exact Iff.rfl

/-- A call takes the commit index below an index it had reached exactly when it hands over a
message that pulls it below that index. -/
theorem call_shifts {c : Call} {answer : Option Nat} (h : n.call c = .ok (n', out, answer)) :
    Shifts n n' fun k =>
      ∃ now sender msg, c = .handle now sender msg ∧ n.PullsBelow k sender msg := by
  cases c with
  | tick now =>
    obtain ⟨ht, rfl⟩ := call_tick_ok h
    exact (tick_advances ht).shifts (by simp)
  | propose now command =>
    obtain ⟨_, hp, _⟩ := call_propose_ok h
    exact (propose_advances hp).shifts (by simp)
  | handle now sender msg =>
    obtain ⟨hh, rfl⟩ := call_handle_ok h
    refine (handle_shifts hh).congr fun k => ⟨fun hp => ⟨now, sender, msg, rfl, hp⟩, ?_⟩
    rintro ⟨_, _, _, he, hp⟩
    cases he
    exact hp

end Node

/-! ## The commit index -/

namespace System

/-- The action is not a completed call that lowers the commit index of its node. -/
def CommitKept (s : System) : Action → Prop
  | .call _ _ (.crashesWithin _) => True
  | .call i c _ => ∀ n n' out answer, s.node i = some n → n.call c = .ok (n', out, answer) →
      n.commitIndex ≤ n'.commitIndex
  | _ => True

/-- The action completes a handler whose message pulls the commit index of its node back. -/
def PulledBack (s : System) : Action → Prop
  | .call _ _ (.crashesWithin _) => False
  | .call i (.handle _ sender msg) _ => ∃ n, s.node i = some n ∧ n.PullsBack sender msg
  | _ => False

/-- The action completes a handler whose message pulls the commit index of its node back below
what the node has applied. -/
def Undercut (s : System) : Action → Prop
  | .call i (.handle _ sender msg) .returns => ∃ n, s.node i = some n ∧ n.Undercuts sender msg
  | _ => False

end System

theorem commitKept_iff {s s' : System} {act : Action} (h : s.perform size act = some s') :
    s.CommitKept act ↔ ¬ s.PulledBack act := by
  cases act with
  | call i c fate =>
    obtain ⟨n, d, m, n', out, answer, hslot, _, hm, hcall, hfate⟩ := System.performCall_ok h
    by_cases hwithin : ∃ lost, fate = .crashesWithin lost
    · obtain ⟨lost, rfl⟩ := hwithin
      simp [System.CommitKept, System.PulledBack]
    obtain rfl : m = n := by
      rcases hfate with ⟨_, hm, _⟩ | ⟨_, hm, _⟩ | ⟨lost, hlost, _⟩
      · exact hm
      · exact hm
      · exact absurd ⟨lost, hlost⟩ hwithin
    have hnode := System.node_of_up hslot
    have hiff := (Node.call_shifts hcall).falls m.commitIndex le_rfl
    have hkept : (∀ n₁ n₂ out answer, s.node i = some n₁ → n₁.call c = .ok (n₂, out, answer) →
        n₁.commitIndex ≤ n₂.commitIndex) ↔ m.commitIndex ≤ n'.commitIndex := by
      constructor
      · exact fun hall => hall m n' out answer hnode hcall
      · intro hle n₁ n₂ out₁ answer₁ hn₁ hc₁
        rw [hnode] at hn₁
        cases hn₁
        rw [hcall] at hc₁
        cases hc₁
        exact hle
    have hpulled : (∃ now sender msg, c = .handle now sender msg ∧
          m.PullsBelow m.commitIndex sender msg) ↔ s.PulledBack (.call i c .returns) := by
      cases c <;> simp [System.PulledBack, Node.PullsBack, hnode]
    cases fate with
    | returns => exact hkept.trans (by rw [← hpulled, ← hiff, Nat.not_lt])
    | crashesAfter =>
      have hsame : s.PulledBack (.call i c .crashesAfter) ↔ s.PulledBack (.call i c .returns) := by
        cases c <;> rfl
      exact hkept.trans (by rw [hsame, ← hpulled, ← hiff, Nat.not_lt])
    | crashesWithin lost => exact absurd ⟨lost, rfl⟩ hwithin
  | _ => simp [System.CommitKept, System.PulledBack]

/-- In a run, every call keeps the commit index of its node from falling if and only if no
handler gets an AppendEntries that pulls it back. -/
theorem commit_monotone_iff {acts : List Action} {s : System}
    (h : System.initial.run size acts = some s) :
    Throughout (System.perform size) System.CommitKept System.initial acts ↔
      Throughout (System.perform size) (fun s act => ¬ s.PulledBack act) System.initial acts :=
  throughout_congr h fun _ _ _ hp => commitKept_iff hp

theorem commit_monotone_iff_reigned :
    Throughout (System.perform 3) System.CommitKept System.initial
        (System.opening ++ System.reigning) ↔
      Throughout (System.perform 3) (fun s act => ¬ s.PulledBack act) System.initial
        (System.opening ++ System.reigning) :=
  commit_monotone_iff System.run_reigned

namespace System

/-- Node 1 helps the leader to commit three entries; node 2 gets two of them in two batches. -/
def outrun : List Action :=
  [.call 1 (.handle 1 0 (.appendEntries 1 0 0 [⟨1, []⟩] 0)) .returns,
    .call 0 (.handle 1 1 (.appendResponse 1 true 1)) .returns,
    .call 0 (.propose 1 [7]) .returns,
    .call 1 (.handle 1 0 (.appendEntries 1 1 1 [⟨1, [7]⟩] 1)) .returns,
    .call 0 (.handle 1 1 (.appendResponse 1 true 2)) .returns,
    .call 0 (.propose 1 [8]) .returns,
    .call 1 (.handle 1 0 (.appendEntries 1 2 1 [⟨1, [8]⟩] 2)) .returns,
    .call 0 (.handle 1 1 (.appendResponse 1 true 3)) .returns,
    .call 0 (.tick 2) .returns,
    .call 2 (.handle 2 0 (.appendEntries 1 0 0 [⟨1, []⟩] 3)) .returns,
    .call 0 (.handle 2 2 (.appendResponse 1 true 1)) .returns,
    .call 2 (.handle 2 0 (.appendEntries 1 1 1 [⟨1, [7]⟩] 3)) .returns,
    .takeCommitted 2]

/-- The first batch arrives at node 2 a second time. -/
def relapse : Action := .call 2 (.handle 2 0 (.appendEntries 1 0 0 [⟨1, []⟩] 3)) .returns

/-- The second batch arrives a second time as well, between two deliveries. -/
def repetition : List Action :=
  [.takeCommitted 2, .call 2 (.handle 2 0 (.appendEntries 1 1 1 [⟨1, [7]⟩] 3)) .returns]

def outrunState : System := (initial.run 3 (opening ++ outrun)).get (by decide +kernel)

def relapsed : System := (initial.run 3 (opening ++ outrun ++ [relapse])).get (by decide +kernel)

def redelivered : System :=
  (initial.run 3 (opening ++ outrun ++ [relapse] ++ repetition ++ [.takeCommitted 2])).get
    (by decide +kernel)

def laggard : Node Disk := (outrunState.node 2).get (by decide +kernel)

end System

/-- A late duplicate of a short batch takes the commit index from 2 back to 1. -/
theorem late_batch_lowers_commit :
    System.initial.run 3 (System.opening ++ System.outrun ++ [System.relapse]) =
        some System.relapsed ∧
      ¬ Throughout (System.perform 3) System.CommitKept System.initial
        (System.opening ++ System.outrun ++ [System.relapse]) := by
  refine ⟨(Option.some_get _).symm, fun h => ?_⟩
  have hrun : System.initial.run 3 (System.opening ++ System.outrun) = some System.outrunState :=
    (Option.some_get _).symm
  have hnode : System.outrunState.node 2 = some System.laggard := (Option.some_get _).symm
  have hkept := h _ _ List.prefix_rfl _ hrun
  have hstep : ∃ n' out answer, System.laggard.call
      (.handle 2 0 (.appendEntries 1 0 0 [⟨1, []⟩] 3)) = .ok (n', out, answer) ∧
      n'.commitIndex < System.laggard.commitIndex := ⟨_, _, _, rfl, by decide +kernel⟩
  obtain ⟨n', out, answer, hcall, hlt⟩ := hstep
  exact absurd hlt (Nat.not_lt.mpr (hkept _ n' out answer hnode hcall))

/-! ## Delivery -/

/-- The batches `d` are the entries of `l` from index 1 on, each with its index. -/
def InOrder (l : List Entry) (d : List (Nat × Entry)) : Prop :=
  ∀ k p, d[k]? = some p → p.1 = k + 1 ∧ l[k]? = some p.2

namespace System

def DeliversInOrder (s : System) : Prop := ∀ i n d, s.slots i = .up n d → InOrder n.log d

end System

/-- Where a live node comes from: an action leaves it alone, calls it, takes a batch from it or
restarts it. -/
inductive Came (s : System) (act : Action) (i : Nat) (n' : Node Disk) (d' : List (Nat × Entry)) :
    Prop
  | same (slot : s.slots i = .up n' d')
  | called (n : Node Disk) (c : Call) (out : List Outgoing) (answer : Option Nat)
      (slot : s.slots i = .up n d') (action : act = .call i c .returns)
      (call : n.call c = .ok (n', out, answer))
  | took (n : Node Disk) (d batch : List (Nat × Entry)) (slot : s.slots i = .up n d)
      (action : act = .takeCommitted i) (take : n.takeCommitted = .ok (n', batch))
      (delivered : d' = d ++ batch)
  | restarted (applied : n'.appliedIndex = 0) (delivered : d' = [])

theorem came_update {s : System} {act : Action} {j : Nat} {slot : Slot} {n' : Node Disk}
    {d' : List (Nat × Entry)} (h : (s.setSlot j slot).slots i = .up n' d')
    (hj : i = j → slot = .up n' d' → Came s act i n' d') : Came s act i n' d' := by
  by_cases hij : i = j
  · apply hj hij
    subst hij
    simpa [System.setSlot] using h
  · exact .same (by simpa [System.setSlot, hij] using h)

theorem perform_came {s s' : System} {act : Action} (h : s.perform size act = some s')
    {n' : Node Disk} {d' : List (Nat × Entry)} (hslot : s'.slots i = .up n' d') :
    Came s act i n' d' := by
  cases act with
  | call j c fate =>
    obtain ⟨n, d, m, n₁, out, answer, hj, _, _, hcall, hfate⟩ := System.performCall_ok h
    rcases hfate with ⟨rfl, rfl, rfl⟩ | ⟨rfl, rfl, rfl⟩ | ⟨lost, rfl, _, rfl⟩
    · refine came_update hslot fun hij he => ?_
      subst hij
      cases he
      exact .called m c out answer hj rfl hcall
    · exact came_update hslot fun _ he => by cases he
    · exact came_update hslot fun _ he => by cases he
  | takeCommitted j =>
    obtain ⟨n, d, n₁, batch, hj, htake, rfl⟩ := System.perform_takeCommitted_ok h
    refine came_update hslot fun hij he => ?_
    subst hij
    cases he
    exact .took n d batch hj rfl htake rfl
  | crash j =>
    obtain ⟨n, d, _, rfl⟩ := System.perform_crash_ok h
    exact came_update hslot fun _ he => by cases he
  | restart j cfg now =>
    obtain ⟨d, n, _, _, _, hnew, rfl⟩ := System.perform_restart_ok h
    refine came_update hslot fun hij he => ?_
    subst hij
    cases he
    obtain ⟨_, deadline, rng, rfl⟩ := Node.new_ok hnew
    exact .restarted rfl rfl

/-- Why delivery stays in order: the applied index counts what was delivered, and that is a
committed prefix of the log. -/
structure DeliverySim (size : Nat) (a : History) (s : System) : Prop where
  system : SystemSim size a s
  inOrder : s.DeliversInOrder
  applied : ∀ i n d, s.slots i = .up n d → n.appliedIndex = d.length
  commit : ∀ i n d, s.slots i = .up n d → n.appliedIndex ≤ n.commitIndex

theorem InOrder.of_agree {l l' : List Entry} {d : List (Nat × Entry)} (h : InOrder l d)
    (hag : AgreeUpTo d.length l' l) : InOrder l' d := by
  intro k p hp
  obtain ⟨hidx, he⟩ := h k p hp
  exact ⟨hidx, by rw [hag.getElem?_eq (List.getElem?_eq_some_iff.mp hp).1, he]⟩

theorem InOrder.append {l : List Entry} {d batch : List (Nat × Entry)} (h : InOrder l d)
    (hb : ∀ k p, batch[k]? = some p → p.1 = d.length + k + 1 ∧ l[d.length + k]? = some p.2) :
    InOrder l (d ++ batch) := by
  intro k p hp
  rcases Nat.lt_or_ge k d.length with hlt | hge
  · rw [List.getElem?_append_left hlt] at hp
    exact h k p hp
  · rw [List.getElem?_append_right hge] at hp
    have := hb _ p hp
    rwa [Nat.add_sub_cancel' hge] at this

/-- A batch starts where delivery stopped. -/
theorem InOrder.take {d batch : List (Nat × Entry)} (h : InOrder n.log d)
    (happlied : n.appliedIndex = d.length) (hcommit : n.appliedIndex ≤ n.commitIndex)
    (htake : n.takeCommitted = .ok (n', batch)) : InOrder n'.log (d ++ batch) ∧
      n'.appliedIndex = (d ++ batch).length ∧ n'.appliedIndex ≤ n'.commitIndex := by
  obtain ⟨rfl, hlen, hbatch⟩ := Node.takeCommitted_ok htake
  refine ⟨h.append fun k p hp => by rw [← happlied]; exact hbatch k p hp, ?_, le_rfl⟩
  rw [List.length_append, hlen, ← happlied, Nat.add_sub_cancel' hcommit]

/-- A call that does not pull the commit index below the applied index keeps it from falling
below it. -/
theorem Node.Shifts.covers {c : Call} {s : System} {d : List (Nat × Entry)}
    (h : Node.Shifts n n' fun k =>
      ∃ now sender msg, c = .handle now sender msg ∧ n.PullsBelow k sender msg)
    (hslot : s.slots i = .up n d) (hcommit : n.appliedIndex ≤ n.commitIndex)
    (hback : ¬ s.Undercut (.call i c .returns)) : n'.appliedIndex ≤ n'.commitIndex := by
  rw [h.applied]
  by_contra hlt
  obtain ⟨now, sender, msg, rfl, hpulls⟩ :=
    (h.falls n.appliedIndex hcommit).mp (Nat.lt_of_not_le hlt)
  exact hback ⟨n, System.node_of_up hslot, hpulls⟩

theorem delivery_step {a : History} {s s' : System} {act : Action} (h : DeliverySim size a s)
    (hback : ¬ s.Undercut act) (hp : s.perform size act = some s') :
    ∃ a', DeliverySim size a' s' := by
  obtain ⟨a', hperf⟩ := perform_simulates h.system hp
  have hall : ∀ i n' d', s'.slots i = .up n' d' → InOrder n'.log d' ∧
      n'.appliedIndex = d'.length ∧ n'.appliedIndex ≤ n'.commitIndex := by
    intro i n' d' hslot'
    have hnode' := hperf.sim.node (System.node_of_up hslot')
    -- a node that was live before keeps the prefix it has committed
    have hkeep : ∀ n, s.slots i = .up n d' → InOrder n'.log d' := by
      intro n hslot
      have hnode := h.system.node (System.node_of_up hslot)
      have hc := hnode.commit
      rw [← hnode.epoch, ← hnode.log] at hc
      have hag := hc.agree_later h.system.inv hperf.steps
      rw [hnode'.log, hnode.log] at hag
      refine (h.inOrder i n d' hslot).of_agree (hag.mono ?_)
      rw [← h.applied i n d' hslot]
      exact h.commit i n d' hslot
    cases perform_came hp hslot' with
    | same slot => exact ⟨hkeep n' slot, h.applied i n' d' slot, h.commit i n' d' slot⟩
    | called n c out answer slot action call =>
      subst action
      have hshifts := Node.call_shifts call
      refine ⟨hkeep n slot, hshifts.applied.trans (h.applied i n d' slot), ?_⟩
      exact hshifts.covers slot (h.commit i n d' slot) hback
    | took n d batch slot _ take delivered =>
      subst delivered
      exact (h.inOrder i n d slot).take (h.applied i n d slot) (h.commit i n d slot) take
    | restarted applied delivered =>
      subst delivered
      exact ⟨fun k p hk => by simp at hk, applied, by rw [applied]; exact Nat.zero_le _⟩
  exact ⟨a', hperf.sim, fun i n d hs => (hall i n d hs).1, fun i n d hs => (hall i n d hs).2.1,
    fun i n d hs => (hall i n d hs).2.2⟩

theorem DeliverySim.initial (size : Nat) :
    DeliverySim size Ledger.initial System.initial where
  system := .initial size
  inOrder i n d h := by cases h
  applied i n d h := by cases h
  commit i n d h := by cases h

/-- In a run in which no handler gets an AppendEntries that pulls the commit index back below
what its node has applied, every incarnation is given the entries of its log from index 1 on,
each once and in order. -/
theorem delivery_in_order {acts : List Action}
    (h : Throughout (System.perform size) (fun s act => ¬ s.Undercut act) System.initial acts) :
    Always (System.perform size) System.DeliversInOrder System.initial acts := by
  have hsim := h.always (I := fun s => ∃ a, DeliverySim size a s) ⟨_, .initial size⟩
    fun _ _ _ ⟨_, hsim⟩ hback hp => delivery_step hsim hback hp
  exact hsim.imp fun _ ⟨_, hsim⟩ => hsim.inOrder

namespace System

instance (s : System) : DecidablePred s.Undercut
  | .call i (.handle _ sender msg) .returns =>
    match hn : s.node i with
    | some n => decidable_of_iff (n.Undercuts sender msg) (by simp [Undercut, hn])
    | none => .isFalse (by simp [Undercut, hn])
  | .call _ (.handle _ _ _) .crashesAfter | .call _ (.handle _ _ _) (.crashesWithin _)
  | .call _ (.tick _) _ | .call _ (.propose _ _) _ | .takeCommitted _ | .crash _
  | .restart _ _ _ => .isFalse id

/-- The first batch arrives again before a batch is taken, and the second one after it. -/
def caughtUp : List Action :=
  outrun.dropLast ++ [relapse, .takeCommitted 2] ++ repetition.tail ++ [.takeCommitted 2]

def caughtUpState : System := (initial.run 3 (opening ++ caughtUp)).get (by decide +kernel)

end System

theorem delivery_in_order_caughtUp :
    System.initial.run 3 (System.opening ++ System.caughtUp) = some System.caughtUpState ∧
      (∃ n, System.caughtUpState.slots 2 = .up n [(1, ⟨1, []⟩), (2, ⟨1, [7]⟩)]) ∧
      Always (System.perform 3) System.DeliversInOrder System.initial
        (System.opening ++ System.caughtUp) :=
  ⟨(Option.some_get _).symm, ⟨_, rfl⟩, delivery_in_order (by decide +kernel)⟩

/-- After the relapse of the commit index, node 2 is given the entry at index 2 again. -/
theorem late_batch_repeats_delivery :
    System.initial.run 3 (System.opening ++ System.outrun ++ [System.relapse] ++
        System.repetition ++ [.takeCommitted 2]) = some System.redelivered ∧
      ¬ Always (System.perform 3) System.DeliversInOrder System.initial
        (System.opening ++ System.outrun ++ [System.relapse] ++ System.repetition ++
          [.takeCommitted 2]) := by
  refine ⟨(Option.some_get _).symm, fun h => ?_⟩
  have hrun : System.initial.run 3 (System.opening ++ System.outrun ++ [System.relapse] ++
      System.repetition ++ [.takeCommitted 2]) = some System.redelivered := (Option.some_get _).symm
  have hslot : ∃ n d, System.redelivered.slots 2 = .up n d ∧ d[2]? = some (2, ⟨1, [7]⟩) :=
    ⟨_, _, rfl, by decide +kernel⟩
  obtain ⟨n, d, hslot, hd⟩ := hslot
  have hidx := (h _ List.prefix_rfl _ hrun 2 n d hslot 2 _ hd).1
  cases hidx

end Landsraad
