import Landsraad.Raft.Merge
import Landsraad.Raft.System

/-!
# Persist before send

At the return of every call the storage holds the term, the vote and the log of the node, and
every message the call returned says no more than the storage can answer for. The messages
that a node handles are arbitrary here: no cluster around it is assumed.
-/

namespace Landsraad

open Checked

namespace Node

variable {n n' : Node Disk} {now : Nat} {out : List Outgoing}

/-- The node after a sequence of calls. -/
def callAll (n : Node Disk) : List Call → Checked (Node Disk)
  | [] => pure n
  | c :: cs => do
    let (n, _, _) ← n.call c
    n.callAll cs

/-- The storage holds what the node would need after a crash. -/
def Persisted (n : Node Disk) : Prop := n.storage.current = ⟨n.term, n.votedFor, n.log⟩

end Node

/-- The state `p` on the storage of node `id` backs the message. -/
def Justified (id : Nat) (p : Persistent) (o : Outgoing) : Prop :=
  o.message.term = p.term ∧
    match o.message with
    | .requestVote _ lastLogIndex lastLogTerm =>
      p.votedFor = some id ∧ lastLogIndex = p.log.length ∧ TermAt p.log lastLogIndex lastLogTerm
    | .voteResponse _ granted => granted = true → p.votedFor = some o.recipient
    | .appendEntries _ prevIndex prevTerm entries _ => IsSlice p.log prevIndex prevTerm entries
    | .appendResponse _ success matchIndex => success = true → matchIndex ≤ p.log.length

/-- A call left the node `n'` and the messages `out` behind. -/
structure Accounted (n' : Node Disk) (out : List Outgoing) : Prop where
  persisted : n'.Persisted
  justified : ∀ o ∈ out, Justified n'.cfg.id n'.storage.current o

theorem Accounted.silent {n : Node Disk} (h : n.Persisted) : Accounted n [] := ⟨h, by simp⟩

namespace Node

variable {n n' : Node Disk} {now : Nat} {out : List Outgoing}

theorem Persisted.singleton (h : n.Persisted) {o : Outgoing}
    (ho : Justified n.cfg.id ⟨n.term, n.votedFor, n.log⟩ o) : Accounted n [o] := by
  refine ⟨h, fun o' ho' => ?_⟩
  rw [List.mem_singleton.mp ho', h]
  exact ho

theorem appendFor_justified {p : Nat} {o : Outgoing} (h : n.appendFor p = .ok o) :
    Justified n.cfg.id ⟨n.term, n.votedFor, n.log⟩ o := by
  obtain ⟨prevIndex, prevTerm, entries, hslice, rfl, _⟩ := appendFor_ok h
  exact ⟨rfl, hslice⟩

theorem Persisted.broadcast (h : n.Persisted) (hout : n.broadcastAppend = .ok out) :
    Accounted n out := by
  refine ⟨h, fun o ho => ?_⟩
  rw [h]
  exact appendFor_justified (broadcastAppend_sends hout ho).2

theorem becomeLeader_accounted (h : n.Persisted) (hl : n.becomeLeader now = .ok (n', out)) :
    Accounted n' out := by
  obtain ⟨c, deadline, rfl, _, hout, _⟩ := becomeLeader_ok hl
  unfold Persisted at h
  apply Persisted.broadcast _ hout
  simp [Persisted, inaugurated, Journal.write, h]

theorem startElection_accounted (h : n.Persisted)
    (hs : n.startElection now = .ok (n', out)) : Accounted n' out := by
  obtain ⟨deadline, rng, _, hcase⟩ := startElection_ok hs
  unfold Persisted at h
  have hstanding : (n.standing deadline rng).Persisted := by
    simp [Persisted, standing, Journal.write, h]
  rcases hcase with ⟨_, hl⟩ | ⟨rfl, t, ht, rfl⟩
  · exact becomeLeader_accounted hstanding hl
  · refine ⟨hstanding, fun o ho => ?_⟩
    obtain ⟨p, _, rfl⟩ := List.mem_map.mp ho
    rw [hstanding]
    exact ⟨rfl, rfl, rfl, ht⟩

theorem tick_accounted (h : n.Persisted) (ht : n.tick now = .ok (n', out)) :
    Accounted n' out := by
  rcases tick_ok ht with ⟨rfl, rfl⟩ | ⟨_, deadline, rfl, hout⟩ | ⟨_, hs⟩
  · exact .silent h
  · exact Persisted.broadcast h hout
  · exact startElection_accounted h hs

theorem stepDown_persisted {term : Nat} (h : n.Persisted) (hf : n.stepDown now term = .ok n') :
    n'.Persisted := by
  obtain ⟨deadline, rng, rfl⟩ := stepDown_ok hf
  unfold Persisted at h
  simp [Persisted, Journal.write, h]

theorem onRequestVote_accounted {sender term lastLogIndex lastLogTerm : Nat} (h : n.Persisted)
    (hr : n.onRequestVote now sender term lastLogIndex lastLogTerm = .ok (n', out)) :
    Accounted n' out := by
  rcases onRequestVote_ok hr with ⟨rfl, rfl⟩ | ⟨_, _, _, rfl, deadline, rng, rfl⟩
  · exact h.singleton ⟨rfl, by simp⟩
  · unfold Persisted at h
    apply Persisted.singleton
    · simp [Persisted, Journal.write, h]
    · exact ⟨rfl, fun _ => rfl⟩

theorem onVoteResponse_accounted {sender term : Nat} {granted : Bool} (h : n.Persisted)
    (hr : n.onVoteResponse now sender term granted = .ok (n', out)) : Accounted n' out := by
  rcases onVoteResponse_ok hr with ⟨rfl, rfl⟩ | ⟨_, _, _, _, ⟨_, hl⟩ | ⟨rfl, rfl⟩⟩
  · exact .silent h
  · have hcounted : Persisted { n with votes := n.votes.set sender true } := h
    exact becomeLeader_accounted hcounted hl
  · exact .silent h

theorem spliced_persisted {k : Nat} {entries : List Entry} (h : n.Persisted) :
    (n.spliced k entries).Persisted := by
  unfold Persisted at h
  unfold spliced
  split <;> simp [Persisted, extended, truncated, Journal.write, h]

/-- The merged log reaches the end of the slice, and so does the storage. -/
theorem mergeEntries_persisted {prevIndex : Nat} {entries : List Entry} (h : n.Persisted)
    (hle : prevIndex ≤ n.log.length) (hm : n.mergeEntries prevIndex 0 entries = .ok n') :
    n'.Persisted ∧ prevIndex + entries.length ≤ n'.log.length := by
  rcases mergeEntries_ok hle hm with ⟨rfl, hs⟩ | ⟨j, e, he, _, hj, _, rfl⟩
  · refine ⟨h, ?_⟩
    by_contra hlt
    have hlast : entries.length - 1 < entries.length := by omega
    obtain ⟨e', he', _⟩ := hs _ _ (List.getElem?_eq_getElem hlast)
    have hbound := (List.getElem?_eq_some_iff.mp he').1
    omega
  · refine ⟨spliced_persisted h, ?_⟩
    have hlt := (List.getElem?_eq_some_iff.mp he).1
    rw [spliced_log, List.length_append, List.length_take, List.length_drop]
    omega

theorem onAppendEntries_accounted {sender term prevIndex prevTerm leaderCommit : Nat}
    {entries : List Entry} (h : n.Persisted)
    (hr : n.onAppendEntries now sender term prevIndex prevTerm entries leaderCommit =
      .ok (n', out)) : Accounted n' out := by
  rcases onAppendEntries_ok hr with ⟨_, rfl, rfl⟩ | ⟨_, _, deadline, rng, hcase⟩
  · exact h.singleton ⟨rfl, by simp⟩
  rcases hcase with ⟨_, rfl, rfl⟩ | ⟨hprev, _, m, hm, rfl, rfl⟩
  · have hf : (n.following sender deadline rng).Persisted := h
    exact hf.singleton ⟨rfl, by simp⟩
  · obtain ⟨hpersisted, hlen⟩ := mergeEntries_persisted (n := n.following sender deadline rng)
      h hprev hm
    have hcommitting : (m.committing leaderCommit (prevIndex + entries.length)).Persisted := by
      unfold committing
      split <;> exact hpersisted
    apply hcommitting.singleton
    refine ⟨committing_term.symm, fun _ => ?_⟩
    rw [committing_log]
    exact hlen

theorem onAppendResponse_accounted {sender term matchIndex : Nat} {success : Bool}
    (h : n.Persisted) (hr : n.onAppendResponse sender term success matchIndex = .ok (n', out)) :
    Accounted n' out := by
  rcases onAppendResponse_ok hr with ⟨_, rfl, rfl⟩ | ⟨_, _, known, _, hcase⟩
  · exact .silent h
  have hn' : n'.Persisted := by
    rcases hcase with ⟨_, hcommit, _⟩ | ⟨_, next, o, _, rfl, _⟩
    · obtain ⟨c, rfl, _⟩ := advanceCommit_ok hcommit
      exact h
    · exact h
  rcases hcase with ⟨_, _, ⟨_, rfl⟩ | ⟨_, o, ho, rfl⟩⟩ | ⟨_, _, o, _, _, ho, rfl⟩
  · exact .silent hn'
  · exact hn'.singleton (appendFor_justified ho)
  · exact hn'.singleton (appendFor_justified ho)

theorem receive_accounted {sender : Nat} {msg : Message} (h : n.Persisted)
    (hr : n.receive now sender msg = .ok (n', out)) : Accounted n' out := by
  cases msg with
  | requestVote term lastLogIndex lastLogTerm => exact onRequestVote_accounted h hr
  | voteResponse term granted => exact onVoteResponse_accounted h hr
  | appendEntries term prevIndex prevTerm entries leaderCommit =>
    exact onAppendEntries_accounted h hr
  | appendResponse term success matchIndex => exact onAppendResponse_accounted h hr

theorem handle_accounted {sender : Nat} {msg : Message} (h : n.Persisted)
    (hh : n.handle now sender msg = .ok (n', out)) : Accounted n' out := by
  rcases handle_ok hh with ⟨_, rfl, rfl⟩ | ⟨_, _, ⟨_, hr⟩ | ⟨_, f, hf, hr⟩⟩
  · exact .silent h
  · exact receive_accounted h hr
  · exact receive_accounted (stepDown_persisted h hf) hr

theorem propose_accounted {command : List UInt8}
    {answer : Except ProposeError (Nat × List Outgoing)} (h : n.Persisted)
    (hp : n.propose now command = .ok (n', answer)) :
    Accounted n' ((answer.toOption.map Prod.snd).getD []) := by
  rcases propose_ok hp with ⟨_, rfl, rfl⟩ | ⟨_, c, out, rfl, _, rfl, hout, _⟩
  · exact .silent h
  · unfold Persisted at h
    refine Persisted.broadcast ?_ hout
    simp [Persisted, appended, Journal.write, h]

theorem call_accounted {c : Call} {answer : Option Nat} (h : n.Persisted)
    (hc : n.call c = .ok (n', out, answer)) : Accounted n' out := by
  cases c with
  | tick now =>
    obtain ⟨ht, rfl⟩ := call_tick_ok hc
    exact tick_accounted h ht
  | propose now command =>
    obtain ⟨r, hp, rfl, _⟩ := call_propose_ok hc
    exact propose_accounted h hp
  | handle now sender msg =>
    obtain ⟨hh, rfl⟩ := call_handle_ok hc
    exact handle_accounted h hh

theorem callAll_persisted {cs : List Call} (h : n.Persisted) (hcs : n.callAll cs = .ok n') :
    n'.Persisted := by
  induction cs generalizing n with
  | nil =>
    cases hcs
    exact h
  | cons c cs ih =>
    obtain ⟨⟨n₁, out, answer⟩, hc, hcs⟩ := bind_eq_ok.mp hcs
    exact ih (call_accounted h hc).persisted hcs

/-- After every call of a node that was started on any storage, the storage loads exactly the
node's term, vote and log, it backs every message the call returned, and a node started on it
has that term, vote and log again. -/
theorem persist_before_send {cfg : Config} {d : Disk} {cs : List Call} {c : Call}
    {start : Node Disk} {answer : Option Nat} (hnew : new cfg d now = .ok start)
    (hcs : start.callAll cs = .ok n) (hc : n.call c = .ok (n', out, answer)) :
    Storage.load n'.storage = .ok (⟨n'.term, n'.votedFor, n'.log⟩, n'.storage) ∧
      (∀ o ∈ out, Justified n'.cfg.id ⟨n'.term, n'.votedFor, n'.log⟩ o) ∧
      ∀ cfg' now' n'', new cfg' n'.storage now' = .ok n'' →
        n''.term = n'.term ∧ n''.votedFor = n'.votedFor ∧ n''.log = n'.log := by
  obtain ⟨_, deadline, rng, rfl⟩ := new_ok hnew
  have hfresh : (fresh cfg d deadline rng).Persisted := rfl
  obtain ⟨hpersisted, hjustified⟩ := call_accounted (callAll_persisted hfresh hcs) hc
  unfold Persisted at hpersisted
  rw [hpersisted] at hjustified
  refine ⟨?_, hjustified, ?_⟩
  · rw [load_disk, hpersisted]
  · intro cfg' now' n'' hagain
    obtain ⟨_, _, _, rfl⟩ := new_ok hagain
    simp [fresh, hpersisted]

/-- A node that stands for term 1 and is elected, over the empty storage. -/
def launched : Node Disk := (new (System.eager 0) Disk.empty 0).toOption.get (by decide +kernel)

def candidate : Node Disk := (launched.callAll [.tick 1]).toOption.get (by decide +kernel)

theorem persist_before_send_candidate :
    ∃ n' out answer, candidate.call (.handle 1 1 (.voteResponse 1 true)) = .ok (n', out, answer) ∧
      Storage.load n'.storage = .ok (⟨n'.term, n'.votedFor, n'.log⟩, n'.storage) :=
  have hcall := eq_ok_get (x := candidate.call (.handle 1 1 (.voteResponse 1 true)))
    (by decide +kernel)
  ⟨_, _, _, hcall, (persist_before_send (eq_ok_get (x := new (System.eager 0) Disk.empty 0) _)
    (eq_ok_get (x := launched.callAll [.tick 1]) _) hcall).1⟩

end Node

end Landsraad
