import Mathlib.Order.Bounds.Basic
import Landsraad.Raft.Safety

/-!
# The commit rule

The scan of `advanceCommit` runs downwards and stops at the first entry of another term. The
terms of a reachable log do not decrease and never exceed the term of its node, so the scan
finds the highest index of the current term that a majority stores.
-/

namespace Landsraad

open ReplicatedLog ReplicatedLog.Ledger Checked

namespace Node

variable {n n' : Node Disk} {now k : Nat} {out : List Outgoing}

/-- Index `k` holds an entry of the current term, and the node itself with the peers whose
match index reaches `k` are a majority of the cluster. -/
def MajorityHolds (n : Node Disk) (k : Nat) : Prop :=
  0 < k ∧ (∃ e, n.log[k - 1]? = some e ∧ e.term = n.term) ∧
    n.cfg.clusterSize / 2 + 1 ≤ 1 + (n.peers.filter fun p => (n.matchIndex[p]?).any (k ≤ ·)).length

/-- The terms along the log do not decrease and do not exceed the term of the node. -/
structure TermsOrdered (n : Node Disk) : Prop where
  mono : ∀ {i j : Nat} {e e' : Entry}, i ≤ j → n.log[i]? = some e → n.log[j]? = some e' →
    e.term ≤ e'.term
  le_term : ∀ e ∈ n.log, e.term ≤ n.term

theorem TermsOrdered.append {m : Node Disk} {l : List Entry} (h : n.TermsOrdered)
    (hterm : m.term = n.term) (hlog : m.log = n.log ++ l) (hl : ∀ e ∈ l, e.term = n.term) :
    m.TermsOrdered where
  mono := by
    intro i j e e' hij he he'
    rw [hlog] at he he'
    by_cases hj : j < n.log.length
    · rw [List.getElem?_append_left hj] at he'
      rw [List.getElem?_append_left (by omega)] at he
      exact h.mono hij he he'
    · rw [List.getElem?_append_right (by omega)] at he'
      rw [hl e' (List.mem_of_getElem? he')]
      rcases List.mem_append.mp (List.mem_of_getElem? he) with hmem | hmem
      · exact h.le_term e hmem
      · exact (hl e hmem).le
  le_term := by
    intro e he
    rw [hlog] at he
    rw [hterm]
    rcases List.mem_append.mp he with hmem | hmem
    · exact h.le_term e hmem
    · exact (hl e hmem).le

theorem Replicated.majorityHolds (h : n.Replicated k) (hpos : 0 < k) : n.MajorityHolds k := by
  obtain ⟨hterm, m, hm, hq⟩ := h
  refine ⟨hpos, ?_, ?_⟩
  · rcases hterm with ⟨h0, _⟩ | ⟨_, he⟩
    · omega
    · exact he
  · rw [← replicasAmong_ok hm]
    exact hq

theorem MajorityHolds.le_length (h : n.MajorityHolds k) : k ≤ n.log.length := by
  obtain ⟨hpos, ⟨e, he, _⟩, _⟩ := h
  have hlt := (List.getElem?_eq_some_iff.mp he).1
  omega

theorem commitScan_complete (hord : n.TermsOrdered) {k : Nat} (h : n.commitScan k = .ok n') :
    ∀ j, n.MajorityHolds j → j ≤ k → j ≤ n'.commitIndex := by
  induction k with
  | zero =>
    intro j hj hle
    have hpos := hj.1
    omega
  | succ k ih =>
    intro j hj hle
    rw [commitScan] at h
    split at h
    · next hk =>
      cases h
      exact hle.trans hk
    · obtain ⟨t, ht, h⟩ := bind_eq_ok.mp h
      have hat := termAt_eq_ok.mp ht
      split at h
      · next hother =>
        -- an entry of the current term cannot lie below one of an older term
        obtain ⟨_, ⟨e, he, het⟩, _⟩ := hj
        rcases hat with ⟨h0, _⟩ | ⟨_, e', he', het'⟩
        · omega
        have hlow : e.term ≤ e'.term := hord.mono (by omega) he he'
        have hhigh : e'.term ≤ n.term := hord.le_term e' (List.mem_of_getElem? he')
        omega
      · obtain ⟨m, hm, h⟩ := bind_eq_ok.mp h
        dsimp only at h
        split at h
        · cases h
          exact hle
        · next hfew =>
          apply ih h j hj
          apply Nat.le_of_lt_succ
          apply lt_of_le_of_ne hle
          rintro rfl
          apply hfew
          rw [replicasAmong_ok hm]
          exact hj.2.2

/-- After the scan the commit index is the highest of its old value and of the indices that a
majority holds. -/
theorem advanceCommit_greatest (hord : n.TermsOrdered) (h : n.advanceCommit = .ok n') :
    IsGreatest (insert n.commitIndex {k | n'.MajorityHolds k}) n'.commitIndex := by
  obtain ⟨_, _, hscan⟩ := bind_eq_ok.mp h
  have hcomplete := commitScan_complete hord hscan
  obtain ⟨c, rfl, hc⟩ := advanceCommit_ok h
  constructor
  · rcases hc with rfl | ⟨hlt, _, hrep⟩
    · exact Set.mem_insert _ _
    · exact Set.mem_insert_of_mem _ (hrep.majorityHolds (by omega))
  · intro k hk
    rcases Set.mem_insert_iff.mp hk with rfl | hk
    · exact hc.le
    · have hmaj : n.MajorityHolds k := hk
      exact hcomplete k hmaj hmaj.le_length

/-! ## A leader's commit index is never behind -/

/-- A leader has committed every index of its term that it knows a majority to hold. -/
def Settled (n : Node Disk) : Prop :=
  n.role = .leader → ∀ k, n.MajorityHolds k → k ≤ n.commitIndex

theorem Settled.of_ne (h : n.role ≠ .leader) : n.Settled := fun hr => absurd hr h

theorem advanceCommit_settled (hord : n'.TermsOrdered) (h : n.advanceCommit = .ok n') :
    n'.Settled := by
  intro _ k hk
  have hord' : n.TermsOrdered := by
    obtain ⟨c, rfl, _⟩ := advanceCommit_ok h
    exact ⟨hord.mono, hord.le_term⟩
  exact (advanceCommit_greatest hord' h).2 (Set.mem_insert_of_mem _ hk)

theorem becomeLeader_settled (hord : n'.TermsOrdered)
    (h : n.becomeLeader now = .ok (n', out)) : n'.Settled := by
  obtain ⟨c, deadline, rfl, _, _, hcommit⟩ := becomeLeader_ok h
  have hord' : TermsOrdered { n.inaugurated with commitIndex := c } := ⟨hord.mono, hord.le_term⟩
  have hset := advanceCommit_settled hord' hcommit
  exact fun hr k hk => hset hr k hk

theorem tick_settled (hord : n'.TermsOrdered) (hn : n.Settled)
    (h : n.tick now = .ok (n', out)) : n'.Settled := by
  rcases tick_ok h with ⟨rfl, _⟩ | ⟨_, deadline, rfl, _⟩ | ⟨_, hs⟩
  · exact hn
  · exact fun hr k hk => hn hr k hk
  · obtain ⟨deadline, rng, _, hcase⟩ := startElection_ok hs
    rcases hcase with ⟨_, hl⟩ | ⟨rfl, _⟩
    · exact becomeLeader_settled hord hl
    · exact .of_ne (by simp [standing])

theorem receive_settled {sender : Nat} {msg : Message} (hord : n'.TermsOrdered) (hn : n.Settled)
    (h : n.receive now sender msg = .ok (n', out)) : n'.Settled := by
  cases msg with
  | requestVote term lastLogIndex lastLogTerm =>
    rcases onRequestVote_ok h with ⟨rfl, _⟩ | ⟨_, _, _, _, deadline, rng, rfl⟩
    · exact hn
    · exact fun hr k hk => hn hr k hk
  | voteResponse term granted =>
    rcases onVoteResponse_ok h with ⟨rfl, _⟩ | ⟨hrole, _, _, _, ⟨_, hl⟩ | ⟨rfl, _⟩⟩
    · exact hn
    · exact becomeLeader_settled hord hl
    · exact .of_ne (by simp [hrole])
  | appendEntries term prevIndex prevTerm entries leaderCommit =>
    rcases onAppendEntries_ok h with ⟨_, rfl, _⟩ | ⟨_, _, deadline, rng, hcase⟩
    · exact hn
    rcases hcase with ⟨_, rfl, _⟩ | ⟨hprev, _, m, hm, rfl, _⟩
    · exact .of_ne (by simp [following])
    · apply Settled.of_ne
      rw [committing_role, (mergeEntries_frame hprev hm).1]
      simp [following]
  | appendResponse term success matchIndex =>
    rcases onAppendResponse_ok h with ⟨_, rfl, _⟩ | ⟨_, _, known, _, hcase⟩
    · exact hn
    rcases hcase with ⟨_, hcommit, _⟩ | ⟨_, next, o, _, rfl, _⟩
    · exact advanceCommit_settled hord hcommit
    · exact fun hr k hk => hn hr k hk

theorem call_settled {c : Call} {answer : Option Nat} (hord : n'.TermsOrdered) (hn : n.Settled)
    (h : n.call c = .ok (n', out, answer)) : n'.Settled := by
  cases c with
  | tick now =>
    obtain ⟨ht, rfl⟩ := call_tick_ok h
    exact tick_settled hord hn ht
  | propose now command =>
    obtain ⟨_, hp, _⟩ := call_propose_ok h
    rcases propose_ok hp with ⟨_, rfl, _⟩ | ⟨_, _, _, _, _, _, _, hcommit⟩
    · exact hn
    · exact advanceCommit_settled hord hcommit
  | handle now sender msg =>
    obtain ⟨hh, rfl⟩ := call_handle_ok h
    rcases handle_ok hh with ⟨_, rfl, _⟩ | ⟨_, _, ⟨_, hr⟩ | ⟨_, f, hf, hr⟩⟩
    · exact hn
    · exact receive_settled hord hn hr
    · obtain ⟨deadline, rng, rfl⟩ := stepDown_ok hf
      exact receive_settled hord (.of_ne (by simp)) hr

end Node

section

variable {size i : Nat} {a : History} {n n' : Node Disk} {s : System} {acts : List Action}

theorem NodeSim.termsOrdered (hinv : Inv (quorums size) a) (h : NodeSim size i a n) :
    n.TermsOrdered where
  mono hij he he' := by
    have hsourced : a.Sourced n.log := by
      rw [← h.log]
      exact hinv.log_sourced i
    exact hinv.sourced_stamp_le hsourced hij he he'
  le_term e he := by
    have hst := hinv.log_stamp i e (by rw [h.log]; exact he)
    rwa [h.epoch] at hst

theorem run_settled (h : System.initial.run size acts = some s) (hi : s.node i = some n) :
    n.Settled := by
  refine run_node_induction (P := Node.Settled) ?_ ?_ ?_ h i n hi
  · intro cfg d now m hnew
    obtain ⟨_, deadline, rng, rfl⟩ := Node.new_ok hnew
    exact .of_ne (by simp [Node.fresh])
  · intro a j m c m' out answer hinv hm' hset hcall
    exact Node.call_settled (hm'.termsOrdered hinv) hset hcall
  · exact fun m hset hr k hk => hset hr k hk

theorem Node.Settled.greatest (h : n.Settled) (hrole : n.role = .leader) :
    IsGreatest (insert n.commitIndex {k | n.MajorityHolds k}) n.commitIndex := by
  constructor
  · exact Set.mem_insert _ _
  · intro k hk
    rcases Set.mem_insert_iff.mp hk with rfl | hk
    · exact le_rfl
    · exact h hrole k hk

/-- A call after which the leader looked at its commit index, or that it ignored. -/
theorem Node.leader_call_ok (hrole : n.role = .leader) {c : Call} {out : List Outgoing}
    {answer : Option Nat}
    (hc : (∃ now command, c = .propose now command) ∨
      ∃ now sender m, c = .handle now sender (.appendResponse n.term true m))
    (hcall : n.call c = .ok (n', out, answer)) :
    n' = n ∨ ∃ (m : Node Disk) (l : List Entry), m.advanceCommit = .ok n' ∧
      m.role = .leader ∧ m.term = n.term ∧ m.cfg = n.cfg ∧ m.commitIndex = n.commitIndex ∧
      m.log = n.log ++ l ∧ ∀ e ∈ l, e.term = n.term := by
  rcases hc with ⟨now, command, rfl⟩ | ⟨now, sender, m, rfl⟩
  · obtain ⟨_, hp, _⟩ := call_propose_ok hcall
    rcases propose_ok hp with ⟨_, rfl, _⟩ | ⟨_, _, _, _, _, _, _, hcommit⟩
    · exact .inl rfl
    · exact .inr ⟨_, [_], hcommit, hrole, rfl, rfl, rfl, rfl, by simp⟩
  · obtain ⟨hh, rfl⟩ := call_handle_ok hcall
    rcases handle_ok hh with ⟨_, rfl, _⟩ | ⟨_, _, ⟨_, hr⟩ | ⟨hlt, _⟩⟩
    · exact .inl rfl
    · rcases onAppendResponse_ok hr with ⟨_, rfl, _⟩ | ⟨_, _, known, _, hcase⟩
      · exact .inl rfl
      rcases hcase with ⟨_, hcommit, _⟩ | ⟨hfalse, _⟩
      · exact .inr ⟨_, [], hcommit, hrole, rfl, rfl, rfl, (List.append_nil _).symm, by simp⟩
      · cases hfalse
    · exact absurd hlt (lt_irrefl _)

/-- After an accepted proposal and after every successful AppendResponse of its term, the
commit index of a reachable leader is the highest of its old value and of the indices that hold
an entry of its term and that a majority is known to store. -/
theorem commit_index_is_greatest (h : System.initial.run size acts = some s)
    (hi : s.node i = some n) (hrole : n.role = .leader) {c : Call} {out : List Outgoing}
    {answer : Option Nat}
    (hc : (∃ now command, c = .propose now command) ∨
      ∃ now sender m, c = .handle now sender (.appendResponse n.term true m))
    (hcall : n.call c = .ok (n', out, answer)) :
    n'.role = .leader ∧ n'.term = n.term ∧ n'.cfg.clusterSize = size ∧
      IsGreatest (insert n.commitIndex {k | n'.MajorityHolds k}) n'.commitIndex ∧
      (n'.commitIndex ≠ n.commitIndex →
        ∃ e, n'.log[n'.commitIndex - 1]? = some e ∧ e.term = n.term) := by
  obtain ⟨a, hsim, _, _⟩ := run_simulates (.initial size) h
  have hnode := hsim.node hi
  have hord := hnode.termsOrdered hsim.inv
  have hmain : n'.role = .leader ∧ n'.term = n.term ∧ n'.cfg = n.cfg ∧
      IsGreatest (insert n.commitIndex {k | n'.MajorityHolds k}) n'.commitIndex := by
    rcases Node.leader_call_ok hrole hc hcall with rfl |
      ⟨m, l, hcommit, hmrole, hmterm, hmcfg, hmcommit, hmlog, hl⟩
    · exact ⟨hrole, rfl, rfl, (run_settled h hi).greatest hrole⟩
    · have hgreatest := Node.advanceCommit_greatest (hord.append hmterm hmlog hl) hcommit
      rw [hmcommit] at hgreatest
      obtain ⟨c', rfl, _⟩ := Node.advanceCommit_ok hcommit
      exact ⟨hmrole, hmterm, hmcfg, hgreatest⟩
  obtain ⟨hrole', hterm', hcfg', hgreatest⟩ := hmain
  have hsize : n'.cfg.clusterSize = size := by
    rw [hcfg']
    exact hnode.clusterSize
  refine ⟨hrole', hterm', hsize, hgreatest, fun hne => ?_⟩
  rcases Set.mem_insert_iff.mp hgreatest.1 with heq | ⟨_, ⟨e, he, het⟩, _⟩
  · exact absurd heq hne
  · exact ⟨e, he, het.trans hterm'⟩

/-- With the acknowledgement of node 1 the first leader commits its no-op. -/
theorem commit_index_is_greatest_opened :
    ∃ n' out answer,
      System.newLeader.call (.handle 1 1 (.appendResponse System.newLeader.term true 1)) =
        .ok (n', out, answer) ∧
      IsGreatest (insert System.newLeader.commitIndex {k | n'.MajorityHolds k})
        n'.commitIndex := by
  have hcall := eq_ok_get
    (x := System.newLeader.call (.handle 1 1 (.appendResponse System.newLeader.term true 1)))
    (by decide +kernel)
  exact ⟨_, _, _, hcall, (commit_index_is_greatest System.run_opening System.node_newLeader
    (by decide +kernel) (.inr ⟨1, 1, 1, rfl⟩) hcall).2.2.2.1⟩

end

end Landsraad
