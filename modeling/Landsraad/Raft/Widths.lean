import Landsraad.Raft.Bookkeeping
import Landsraad.Raft.Codec
import Landsraad.Raft.Provenance
import Landsraad.Raft.Timers

/-!
# Widths

Numbers travel as 64-bit words and lengths in 32 bits. A node whose state fits these widths, and
that is given short commands and messages that were decoded, sends only what fits them again, and
stays within them as long as its log has fewer than `2 ^ 64` entries.
-/

namespace Landsraad

open Checked ReplicatedLog

/-! ## States and calls that fit -/

structure Persistent.Encodable (p : Persistent) : Prop where
  term : p.term < UInt64.size
  length : p.log.length < UInt64.size
  entries : ∀ e ∈ p.log, e.Encodable

/-- The state of the node, on its storage as well, and its batches. -/
structure Node.Encodable (n : Node Disk) : Prop where
  persisted : n.Persisted
  current : n.storage.current.Encodable
  commit : n.commitIndex < UInt64.size
  batch : n.cfg.maxBatch < UInt32.size
  ranged : n.Ranged

/-- The command of a proposal is short, and a message was decoded. -/
def Call.Encodable : Call → Prop
  | .tick _ => True
  | .propose _ command => command.length < UInt32.size
  | .handle _ _ msg => msg.Encodable

/-- The entry may stand at any position of a log. -/
def Entry.Fits (_ : Nat) (e : Entry) : Prop := e.Encodable

theorem admits_fits {l : List Entry} : Admits Entry.Fits l ↔ ∀ e ∈ l, e.Encodable := by
  constructor
  · intro h e he
    obtain ⟨k, hk⟩ := List.getElem?_of_mem he
    exact h k e hk
  · exact fun h k e he => h e (List.mem_of_getElem? he)

theorem Message.Encodable.term {msg : Message} (h : msg.Encodable) : msg.term < UInt64.size := by
  cases msg with
  | voteResponse => exact h
  | _ => exact h.1

theorem Message.Encodable.admits {msg : Message} (h : msg.Encodable) : msg.Admits Entry.Fits := by
  cases msg with
  | appendEntries term prevIndex prevTerm entries leaderCommit =>
    obtain ⟨_, _, _, _, _, hentries⟩ := h
    exact fun k e he => hentries e (List.mem_of_getElem? he)
  | _ => trivial

namespace Node

variable {n n' : Node Disk} {now : Nat} {out : List Outgoing}

/-! ## The indices in a message -/

/-- An AppendEntries carries the commit index, and the hint of a failed reply to one is an index
of the log. -/
def Hints (n : Node Disk) : Message → Prop
  | .appendEntries _ _ _ _ leaderCommit => leaderCommit = n.commitIndex
  | .appendResponse _ false hint => hint ≤ n.log.length
  | _ => True

theorem appendFor_hints {p : Nat} {o : Outgoing} (h : n.appendFor p = .ok o) :
    n.Hints o.message := by
  obtain ⟨_, _, _, _, rfl, _⟩ := appendFor_ok h
  rfl

theorem broadcastAppend_hints (h : n.broadcastAppend = .ok out) : ∀ o ∈ out, n.Hints o.message :=
  fun _ ho => appendFor_hints (broadcastAppend_sends h ho).2

theorem becomeLeader_hints (h : n.becomeLeader now = .ok (n', out)) :
    ∀ o ∈ out, n'.Hints o.message := by
  obtain ⟨_, _, rfl, _, hout, _⟩ := becomeLeader_ok h
  exact broadcastAppend_hints hout

theorem receive_hints {sender : Nat} {msg : Message}
    (h : n.receive now sender msg = .ok (n', out)) : ∀ o ∈ out, n'.Hints o.message := by
  cases msg with
  | requestVote term lastLogIndex lastLogTerm =>
    rcases onRequestVote_ok h with ⟨_, rfl⟩ | ⟨_, _, _, rfl, _⟩ <;> simp [Hints]
  | voteResponse term granted =>
    rcases onVoteResponse_ok h with ⟨_, rfl⟩ | ⟨_, _, _, _, ⟨_, hl⟩ | ⟨_, rfl⟩⟩
    · simp
    · exact becomeLeader_hints hl
    · simp
  | appendEntries term prevIndex prevTerm entries leaderCommit =>
    rcases onAppendEntries_ok h with ⟨_, _, rfl⟩ | ⟨_, _, deadline, rng, hcase⟩
    · simp [Hints]
    rcases hcase with ⟨_, rfl, rfl⟩ | ⟨_, _, m, _, rfl, rfl⟩
    · simp only [List.mem_singleton, forall_eq, Hints]
      split
      · exact le_rfl
      · next hge => exact (Nat.sub_le _ _).trans (Nat.le_of_not_lt hge)
    · simp [Hints]
  | appendResponse term success matchIndex =>
    rcases onAppendResponse_ok h with ⟨_, _, rfl⟩ | ⟨_, _, known, _, hcase⟩
    · simp
    rcases hcase with ⟨_, _, ⟨_, rfl⟩ | ⟨_, o, ho, rfl⟩⟩ | ⟨_, _, o, _, _, ho, rfl⟩
    · simp
    · simpa using appendFor_hints ho
    · simpa using appendFor_hints ho

theorem call_hints {c : Call} {answer : Option Nat} (h : n.call c = .ok (n', out, answer)) :
    ∀ o ∈ out, n'.Hints o.message := by
  cases c with
  | tick now =>
    obtain ⟨ht, rfl⟩ := call_tick_ok h
    rcases tick_ok ht with ⟨_, rfl⟩ | ⟨_, deadline, rfl, hout⟩ | ⟨_, hs⟩
    · simp
    · exact broadcastAppend_hints hout
    · obtain ⟨deadline, rng, _, hcase⟩ := startElection_ok hs
      rcases hcase with ⟨_, hl⟩ | ⟨_, t, _, rfl⟩
      · exact becomeLeader_hints hl
      · simp [Hints]
  | propose now command =>
    obtain ⟨r, hp, rfl, _⟩ := call_propose_ok h
    rcases propose_ok hp with ⟨_, _, rfl⟩ | ⟨_, c, out', rfl, _, rfl, hout, _⟩
    · simp [Except.toOption]
    · exact broadcastAppend_hints hout
  | handle now sender msg =>
    obtain ⟨hh, rfl⟩ := call_handle_ok h
    rcases handle_receives hh with ⟨_, _, rfl⟩ | ⟨_, _, f, hr, _⟩
    · simp
    · exact receive_hints hr

/-! ## Terms and commit indices -/

/-- A candidate's term is a word: the addition is checked. -/
theorem startElection_term (h : n.startElection now = .ok (n', out)) : n'.term < UInt64.size := by
  have hstood := h
  unfold startElection at hstood
  obtain ⟨term, hadd, _⟩ := bind_eq_ok.mp hstood
  obtain ⟨hlt, rfl⟩ := add_eq_ok.mp hadd
  obtain ⟨deadline, rng, _, ⟨_, hl⟩ | ⟨rfl, _⟩⟩ := startElection_ok h
  · obtain ⟨c, deadline', rfl, _⟩ := becomeLeader_ok hl
    exact hlt
  · exact hlt

theorem call_term_lt {c : Call} {answer : Option Nat} (hterm : n.term < UInt64.size)
    (hc : c.Encodable) (h : n.call c = .ok (n', out, answer)) : n'.term < UInt64.size := by
  have hbound : ∀ {k : Nat}, k < UInt64.size → k ≤ UInt64.size - 1 := fun hk => by omega
  have hword : ∀ {k : Nat}, k ≤ UInt64.size - 1 → k < UInt64.size := fun hk => by
    have hpos : 0 < UInt64.size := by decide
    omega
  cases c with
  | tick now =>
    rcases tick_ok (call_tick_ok h).1 with ⟨rfl, _⟩ | ⟨_, deadline, rfl, _⟩ | ⟨_, hs⟩
    · exact hterm
    · exact hterm
    · exact startElection_term hs
  | propose now command =>
    have hwithin : (Call.propose now command).Within (UInt64.size - 1) := trivial
    exact hword (call_term_le hwithin (hbound hterm) h)
  | handle now sender msg =>
    have hwithin : (Call.handle now sender msg).Within (UInt64.size - 1) :=
      hbound (Message.Encodable.term hc)
    exact hword (call_term_le hwithin (hbound hterm) h)

theorem scanned_lt {k c b : Nat} (h : n.Scanned k c) (hcommit : n.commitIndex < b) (hk : k < b) :
    c < b := by
  rcases h with rfl | ⟨_, hle, _⟩
  · exact hcommit
  · exact hle.trans_lt hk

theorem becomeLeader_commit_lt (hcommit : n.commitIndex < UInt64.size)
    (h : n.becomeLeader now = .ok (n', out)) (hlen : n'.log.length < UInt64.size) :
    n'.commitIndex < UInt64.size := by
  obtain ⟨c, deadline, rfl, hc, _⟩ := becomeLeader_ok h
  exact scanned_lt hc hcommit hlen

theorem receive_commit_lt {sender : Nat} {msg : Message} (hcommit : n.commitIndex < UInt64.size)
    (hmsg : msg.Encodable) (h : n.receive now sender msg = .ok (n', out))
    (hlen : n'.log.length < UInt64.size) : n'.commitIndex < UInt64.size := by
  cases msg with
  | requestVote term lastLogIndex lastLogTerm =>
    rcases onRequestVote_ok h with ⟨rfl, _⟩ | ⟨_, _, _, _, _, _, rfl⟩ <;> exact hcommit
  | voteResponse term granted =>
    rcases onVoteResponse_ok h with ⟨rfl, _⟩ | ⟨_, _, _, _, ⟨_, hl⟩ | ⟨rfl, _⟩⟩
    · exact hcommit
    · exact becomeLeader_commit_lt (n := { n with votes := n.votes.set sender true }) hcommit hl
        hlen
    · exact hcommit
  | appendEntries term prevIndex prevTerm entries leaderCommit =>
    obtain ⟨_, _, _, hleader, _⟩ := hmsg
    rcases onAppendEntries_ok h with ⟨_, rfl, _⟩ | ⟨_, _, deadline, rng, hcase⟩
    · exact hcommit
    rcases hcase with ⟨_, rfl, _⟩ | ⟨hprev, _, m, hm, rfl, _⟩
    · exact hcommit
    · have hsame : m.commitIndex = n.commitIndex := by
        rcases mergeEntries_ok (k := 0) hprev hm with ⟨rfl, _⟩ | ⟨j, e, _, _, _, _, rfl⟩
        · rfl
        · unfold spliced
          split <;> rfl
      unfold committing
      split
      · exact (min_le_left _ _).trans_lt hleader
      · rw [hsame]
        exact hcommit
  | appendResponse term success matchIndex =>
    rcases onAppendResponse_ok h with ⟨_, rfl, _⟩ | ⟨_, _, known, _, hcase⟩
    · exact hcommit
    rcases hcase with ⟨_, hadvance, _⟩ | ⟨_, _, _, _, rfl, _⟩
    · obtain ⟨c, rfl, hc⟩ := advanceCommit_ok hadvance
      exact scanned_lt hc hcommit hlen
    · exact hcommit

theorem call_commit_lt {c : Call} {answer : Option Nat} (hcommit : n.commitIndex < UInt64.size)
    (hc : c.Encodable) (h : n.call c = .ok (n', out, answer))
    (hlen : n'.log.length < UInt64.size) : n'.commitIndex < UInt64.size := by
  cases c with
  | tick now =>
    rcases tick_ok (call_tick_ok h).1 with ⟨rfl, _⟩ | ⟨_, deadline, rfl, _⟩ | ⟨_, hs⟩
    · exact hcommit
    · exact hcommit
    · obtain ⟨deadline, rng, _, ⟨_, hl⟩ | ⟨rfl, _⟩⟩ := startElection_ok hs
      · exact becomeLeader_commit_lt (n := n.standing deadline rng) hcommit hl hlen
      · exact hcommit
  | propose now command =>
    obtain ⟨r, hp, _⟩ := call_propose_ok h
    rcases propose_ok hp with ⟨_, rfl, _⟩ | ⟨_, c, out', rfl, hscan, _⟩
    · exact hcommit
    · exact scanned_lt hscan hcommit hlen
  | handle now sender msg =>
    obtain ⟨hh, rfl⟩ := call_handle_ok h
    rcases handle_ok hh with ⟨_, rfl, _⟩ | ⟨_, _, ⟨_, hr⟩ | ⟨_, f, hf, hr⟩⟩
    · exact hcommit
    · exact receive_commit_lt hcommit hc hr hlen
    · obtain ⟨deadline, rng, rfl⟩ := stepDown_ok hf
      exact receive_commit_lt (by exact hcommit) hc hr hlen

/-! ## Calls -/

/-- What a call sends fits, if what it leaves behind does. -/
theorem encodable_of {o : Outgoing} (hj : Justified n.cfg.id n.storage.current o)
    (hb : n.Batched o) (hh : n.Hints o.message) (h : n.Encodable) : o.message.Encodable := by
  have typed := h.current
  have hp := h.persisted
  unfold Persisted at hp
  rw [hp] at hj typed
  have hterm : ∀ {index t}, TermAt n.log index t → t < UInt64.size := by
    rintro index t (⟨_, rfl⟩ | ⟨_, e, he, rfl⟩)
    · decide
    · exact (typed.entries e (List.mem_of_getElem? he)).1
  obtain ⟨hown, hbody⟩ := hj
  have howns : o.message.term < UInt64.size := by
    rw [hown]
    exact typed.term
  cases hm : o.message with
  | requestVote term lastLogIndex lastLogTerm =>
    rw [hm] at hbody howns
    obtain ⟨_, rfl, hlast⟩ := hbody
    exact ⟨howns, typed.length, hterm hlast⟩
  | voteResponse term granted =>
    rw [hm] at howns
    exact howns
  | appendEntries term prevIndex prevTerm entries leaderCommit =>
    simp only [Batched, hm] at hb
    rw [hm] at hbody howns hh
    obtain ⟨hprev, hprevTerm, hentries⟩ := hbody
    obtain ⟨_, _, _, _, _, hbatched⟩ := hb
    obtain rfl : leaderCommit = n.commitIndex := hh
    have hbatch := h.batch
    refine ⟨howns, hprev.trans_lt typed.length, hterm hprevTerm, h.commit, ?_, fun e he => ?_⟩
    · rw [hbatched, List.length_take]
      omega
    · exact typed.entries e (List.mem_of_mem_drop (hentries.subset he))
  | appendResponse term success matchIndex =>
    rw [hm] at hbody howns hh
    refine ⟨howns, ?_⟩
    cases success with
    | false => exact Nat.lt_of_le_of_lt hh typed.length
    | true => exact (hbody rfl).trans_lt typed.length

/-- What a call writes are entries that fit. -/
theorem Encodable.flowed {c : Call} {answer : Option Nat} (h : n.Encodable) (hc : c.Encodable)
    (hcall : n.call c = .ok (n', out, answer)) : Flowed Entry.Fits n n' := by
  have hp := h.persisted
  unfold Persisted at hp
  have hcurrent := h.current
  rw [hp] at hcurrent
  have hterm := call_term_lt hcurrent.term hc hcall
  have hread : ∀ now sender msg, c = .handle now sender msg → msg.Admits Entry.Fits := by
    rintro now sender msg rfl
    exact Message.Encodable.admits hc
  have hown : n'.role = .leader → ∀ k command, c.Brings command →
      Entry.Fits k ⟨n'.term, command⟩ := by
    rintro _ k command (rfl | ⟨now, rfl⟩)
    · exact ⟨hterm, (by decide : 0 < UInt32.size)⟩
    · exact ⟨hterm, hc⟩
  exact (call_flowed h.persisted (admits_fits.mpr hcurrent.entries) hread hown hcall).1

/-- A call leaves a node within the widths, as long as the log is one that a vector can hold, and
all that it sends is within them. -/
theorem Encodable.call {c : Call} {answer : Option Nat} (h : n.Encodable) (hc : c.Encodable)
    (hcall : n.call c = .ok (n', out, answer)) (hlen : n'.log.length < UInt64.size) :
    n'.Encodable ∧ ∀ o ∈ out, o.message.Encodable := by
  have hp := h.persisted
  unfold Persisted at hp
  have hcurrent := h.current
  rw [hp] at hcurrent
  have hacc := call_accounted h.persisted hcall
  have hpersisted := hacc.persisted
  unfold Persisted at hpersisted
  have hbooked := call_booked h.ranged hcall
  have hn' : n'.Encodable := by
    refine ⟨hacc.persisted, ?_, call_commit_lt h.commit hc hcall hlen, ?_, hbooked.ranged⟩
    · rw [hpersisted]
      exact ⟨call_term_lt hcurrent.term hc hcall, hlen, admits_fits.mp (h.flowed hc hcall).log⟩
    · rw [(call_timed hcall).cfg]
      exact h.batch
  exact ⟨hn', fun o ho =>
    encodable_of (hacc.justified o ho) (hbooked.batched o ho) (call_hints hcall o ho) hn'⟩

/-- A node starts within the widths from a storage within them. -/
theorem new_encodable {cfg : Config} {d : Disk} (hd : d.current.Encodable)
    (hbatch : cfg.maxBatch < UInt32.size) (h : Node.new cfg d now = .ok n) : n.Encodable := by
  obtain ⟨_, deadline, rng, rfl⟩ := new_ok h
  exact ⟨rfl, hd, (by decide : 0 < UInt64.size), hbatch, fresh_ranged cfg d deadline rng⟩

end Node

end Landsraad
