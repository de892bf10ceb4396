import Mathlib.Data.Finset.Range
import Landsraad.Raft.Merge
import Landsraad.Raft.Refinement

/-!
# Every method of a node is a sequence of ledger moves

For each method: from a node related to the ledger, a normal return leads by a trail of moves
to a ledger related to the node after the call and to every message it returned.
-/

namespace Landsraad

open ReplicatedLog ReplicatedLog.Ledger

variable {size i : Nat} {a a' a'' : History} {n n' n'' : Node Disk} {now : Nat}
  {out : List Outgoing}

/-- What a call without an accepted proposal does to the reigns: nothing, or it opens the reign
of the node after the call, with a no-op. -/
def Reigns (i : Nat) (a a' : History) (n n' : Node Disk) : Prop :=
  (a'.reign = a.reign ∧ (n'.role = .leader → n.role = .leader ∧ n.term = n'.term)) ∨
    (n'.role = .leader ∧ a.reign n'.term = none ∧ ∃ l, n'.log = l ++ [⟨n'.term, []⟩] ∧
      a'.reign = Function.update a.reign n'.term (some ⟨i, l.length, n'.log⟩))

structure Simulates (size i : Nat) (a : History) (n : Node Disk) (a' : History) (n' : Node Disk)
    (out : List Outgoing) : Prop where
  trail : Trail size i a n.storage a' n'.storage
  node : NodeSim size i a' n'
  sent : ∀ o ∈ out, MessageSim size a' ⟨i, o.recipient, o.message⟩

theorem Simulates.idle (h : NodeSim size i a n) : Simulates size i a n a n [] :=
  ⟨.refl, h, by simp⟩

theorem Simulates.trans (h : Simulates size i a n a' n' [])
    (h' : Simulates size i a' n' a'' n'' out) :
    Simulates size i a n a'' n'' out :=
  ⟨h.trail.trans h'.trail, h'.node, h'.sent⟩

theorem Simulates.extends (hinv : Inv (quorums size) a) (h : Simulates size i a n a' n' out) :
    Extends a a' :=
  h.trail.steps.extends hinv

theorem Reigns.idle (hreign : a'.reign = a.reign) (hrole : n'.role = n.role)
    (hterm : n'.term = n.term) : Reigns i a a' n n' :=
  .inl ⟨hreign, fun hr => ⟨hrole ▸ hr, hterm.symm⟩⟩

theorem Reigns.of_idle (h : Reigns i a' a'' n' n'') (hr : a'.reign = a.reign)
    (hrole : n'.role ≠ .leader) : Reigns i a a'' n n'' := by
  rcases h with ⟨he, hl⟩ | h
  · exact .inl ⟨he.trans hr, fun hn => absurd (hl hn).1 hrole⟩
  · rw [hr] at h
    exact .inr h

theorem NodeSim.epoch (h : NodeSim size i a n) : a.epoch i = n.term := by
  have := h.disk.epoch
  rwa [h.persisted] at this

theorem NodeSim.log (h : NodeSim size i a n) : a.log i = n.log := by
  have := h.disk.log
  rwa [h.persisted] at this

theorem NodeSim.vote (h : NodeSim size i a n) : a.vote i n.term = n.votedFor := by
  have := h.disk.vote
  rwa [h.persisted] at this

theorem NodeSim.certified (h : NodeSim size i a n) :
    a.Certified (quorums size) (a.epoch i) (a.log i) n.commitIndex := by
  rw [h.epoch, h.log]
  exact h.commit

theorem NodeSim.commit_steps (h : NodeSim size i a n) (hinv : Inv (quorums size) a)
    (hs : Steps (quorums size) a a') {t : Nat} {l : List Entry} (ht : a'.epoch i = t)
    (hl : a'.log i = l) : a'.Certified (quorums size) t l n.commitIndex := by
  have := h.certified.steps hinv hs
  rwa [ht, hl] at this

theorem termAt_length_iff {l : List Entry} {t : Nat} :
    TermAt l l.length t ↔ lastStamp l = t := by
  by_cases hnil : l = []
  · subst hnil
    simp [TermAt, eq_comm]
  · obtain ⟨e, he, hst⟩ := lastStamp_eq hnil
    have hpos := List.length_pos_iff.mpr hnil
    rw [hst]
    constructor
    · rintro (⟨h0, _⟩ | ⟨_, e', he', ht⟩)
      · omega
      · rw [he] at he'
        cases he'
        exact ht
    · exact fun ht => .inr ⟨hpos, e, he, ht⟩

/-! ## Messages of a leader -/

theorem NodeSim.append_message (h : NodeSim size i a n) (hrole : n.role = .leader) {p : Nat}
    {prevIndex prevTerm : Nat} {entries : List Entry}
    (hs : IsSlice n.log prevIndex prevTerm entries) :
    MessageSim size a ⟨i, p, .appendEntries n.term prevIndex prevTerm entries n.commitIndex⟩ := by
  obtain ⟨r, hr, hlead, hledger, _, _⟩ := h.leader hrole
  refine ⟨r, hr, hlead, ?_, ?_⟩
  · rw [hledger]
    exact hs
  · rw [hledger]
    exact h.commit

theorem NodeSim.broadcast (h : NodeSim size i a n) (hrole : n.role = .leader)
    (hout : n.broadcastAppend = .ok out) :
    ∀ o ∈ out, MessageSim size a ⟨i, o.recipient, o.message⟩ := by
  intro o ho
  obtain ⟨_, prevIndex, prevTerm, entries, hs, hm⟩ := Node.broadcastAppend_ok hout o ho
  rw [hm]
  exact h.append_message hrole hs

theorem NodeSim.appendFor (h : NodeSim size i a n) (hrole : n.role = .leader) {p : Nat}
    {o : Outgoing} (ho : n.appendFor p = .ok o) :
    MessageSim size a ⟨i, o.recipient, o.message⟩ := by
  obtain ⟨prevIndex, prevTerm, entries, hs, rfl, _⟩ := Node.appendFor_ok ho
  exact h.append_message hrole hs

/-! ## The commit rule -/

/-- What the commit rule counts is a quorum of acknowledgements in the leader's own reign. -/
theorem NodeSim.certified_of_replicated (h : NodeSim size i a n) (hinv : Inv (quorums size) a)
    (hrole : n.role = .leader) {c : Nat} (hle : c ≤ n.log.length) (hc : n.Replicated c) :
    a.Certified (quorums size) n.term n.log c := by
  obtain ⟨hterm, m, hm, hq⟩ := hc
  obtain ⟨r, hr, hlead, hledger, hown, hmatch⟩ := h.leader hrole
  rcases hterm with ⟨rfl, _⟩ | ⟨hpos, e, he, het⟩
  · exact .zero _ _
  have hbase : r.base < c := by
    by_contra hlt
    have hmem : e ∈ r.ledger.take r.base :=
      List.mem_of_getElem? (i := c - 1)
        (by rw [List.getElem?_take_of_lt (by omega), hledger, he])
    have hst := hinv.bid_stamp (hinv.reign_bid hr).1 e hmem
    rw [stamp_entry] at hst
    omega
  let stores := n.peers.filter fun p => (n.matchIndex[p]?).any (c ≤ ·)
  have hstores : ∀ p ∈ stores, p < size ∧ p ≠ i ∧ c ≤ a.ack p n.term := by
    intro p hp
    obtain ⟨hpeer, hany⟩ := List.mem_filter.mp hp
    obtain ⟨hlt, hne⟩ := Node.mem_peers.mp hpeer
    rw [h.clusterSize] at hlt
    rw [h.id] at hne
    obtain ⟨x, hx, hcx⟩ := (Option.any_eq_true _ _).mp hany
    exact ⟨hlt, hne, (of_decide_eq_true hcx).trans (hmatch p x hne hx)⟩
  have hcard : (insert i stores.toFinset).card = m + 1 := by
    rw [Finset.card_insert_of_notMem (fun hi => (hstores i (List.mem_toFinset.mp hi)).2.1 rfl),
      List.toFinset_card_of_nodup (Node.nodup_peers.filter _), Node.replicasAmong_ok hm]
  refine .inr ⟨n.term, c, r, le_rfl, hr, ⟨r, hr, hbase, insert i stores.toFinset, ⟨?_, ?_⟩, ?_⟩,
    le_rfl, by rw [hledger]; exact .refl hle⟩
  · intro p hp
    rcases Finset.mem_insert.mp hp with rfl | hp
    · exact Finset.mem_range.mpr h.lt_size
    · exact Finset.mem_range.mpr (hstores p (List.mem_toFinset.mp hp)).1
  · rw [hcard, Finset.card_range]
    unfold Node.quorum at hq
    rw [h.clusterSize] at hq
    omega
  · intro p hp
    rcases Finset.mem_insert.mp hp with rfl | hp
    · exact hle.trans hown
    · exact (hstores p (List.mem_toFinset.mp hp)).2.2

theorem NodeSim.commitIndex (h : NodeSim size i a n) (hinv : Inv (quorums size) a)
    (hrole : n.role = .leader) {c : Nat} (hc : n.Scanned n.lastIndex c) :
    NodeSim size i a { n with commitIndex := c } := by
  refine { h with commit := ?_ }
  rcases hc with rfl | ⟨_, hle, hrep⟩
  · exact h.commit
  · exact h.certified_of_replicated hinv hrole hle hrep

/-! ## Elections -/

theorem stepDown_simulates (hinv : Inv (quorums size) a) (h : NodeSim size i a n) {t : Nat}
    (ht : n.term < t) (hf : n.stepDown now t = .ok n') :
    ∃ a', Simulates size i a n a' n' [] ∧ a'.reign = a.reign ∧ n'.role = .follower ∧
      n'.term = t := by
  obtain ⟨deadline, rng, rfl⟩ := Node.stepDown_ok hf
  have hstep : Step (quorums size) i a (a.advance i t) := .advance (by rw [h.epoch]; exact ht)
  have hdisk : DiskSim i (a.advance i t) ⟨t, none, n.log⟩ := by
    refine ⟨by simp [Ledger.advance], ?_, h.log⟩
    by_contra hne
    obtain ⟨c, hc⟩ := Option.ne_none_iff_exists'.mp hne
    have hle := hinv.vote_le (v := i) (t := t) hc
    rw [h.epoch] at hle
    omega
  refine ⟨a.advance i t, ⟨Trail.refl.write hstep (by rw [h.persisted]; exact hdisk), ?_, by simp⟩,
    rfl, rfl, rfl⟩
  refine
    { h with
      persisted := by simp [Journal.write, h.persisted]
      disk := by simpa [Journal.write, h.persisted] using hdisk
      candidate := by simp
      leader := by simp
      commit := ?_ }
  exact h.commit.mono (hstep.extends hinv) ht.le

theorem card_filter_eq_count (l : List Bool) :
    ((Finset.range l.length).filter fun p => l[p]? = some true).card = l.count true := by
  induction l using List.reverseRecOn with
  | nil => simp
  | append_singleton l b ih =>
    rw [List.length_append, List.length_singleton, Finset.range_add_one, Finset.filter_insert,
      List.count_append, ← ih]
    have hsame : ((Finset.range l.length).filter fun p => (l ++ [b])[p]? = some true) =
        (Finset.range l.length).filter fun p => l[p]? = some true := by
      apply Finset.filter_congr
      intro p hp
      rw [List.getElem?_append_left (Finset.mem_range.mp hp)]
    rw [hsame]
    cases b <;> simp

/-- A candidate that counts a majority of votes has them on record, and its term has no
leader yet. -/
theorem NodeSim.mandate (h : NodeSim size i a n) (hinv : Inv (quorums size) a)
    (hrole : n.role = .candidate) (hcount : n.quorum ≤ n.votes.count true) :
    a.reign n.term = none ∧ ∃ Q, (quorums size).IsQuorum Q ∧ ∀ w ∈ Q, a.vote w n.term = some i := by
  obtain ⟨_, hreign, hvotes⟩ := h.candidate hrole
  let Q := (Finset.range n.votes.length).filter fun p => n.votes[p]? = some true
  have hvote : ∀ w ∈ Q, a.vote w n.term = some i :=
    fun w hw => hvotes w (Finset.mem_filter.mp hw).2
  have hQ : (quorums size).IsQuorum Q := by
    refine ⟨?_, ?_⟩
    · rw [← h.votes_length]
      exact Finset.filter_subset _ _
    · rw [card_filter_eq_count, Finset.card_range]
      unfold Node.quorum at hcount
      rw [h.clusterSize] at hcount
      exact hcount
  refine ⟨?_, Q, hQ, hvote⟩
  by_contra hne
  obtain ⟨r, hr⟩ := Option.ne_none_iff_exists'.mp hne
  obtain ⟨Q', hQ', hall⟩ := hinv.mandate hr
  obtain ⟨w, hw, hw'⟩ := (quorums size).meet hQ hQ'
  have hclash := (hvote w hw).symm.trans (hall w hw').1
  exact hreign r hr (Option.some.inj hclash).symm

theorem inaugurated_simulates (hinv : Inv (quorums size) a) (h : NodeSim size i a n)
    (hrole : n.role = .candidate) (hcount : n.quorum ≤ n.votes.count true) :
    Simulates size i a n (a.elect i ⟨n.term, []⟩) n.inaugurated [] := by
  obtain ⟨hvacant, Q, hQ, hvote⟩ := h.mandate hinv hrole hcount
  obtain ⟨hbid, _, _⟩ := h.candidate hrole
  let noop : Entry := ⟨n.term, []⟩
  have hstep : Step (quorums size) i a (a.elect i noop) := by
    refine .elect hQ ?_ ?_ ?_ ?_
    · rw [h.epoch]; exact hvote
    · rw [h.epoch, h.log]; exact hbid
    · rw [h.epoch]; exact hvacant
    · rw [h.epoch]; rfl
  have hdisk : DiskSim i (a.elect i noop) ⟨n.term, n.votedFor, n.log ++ [noop]⟩ :=
    ⟨h.epoch, h.vote, by simp [Ledger.elect, h.log]⟩
  refine ⟨Trail.refl.write hstep (by rw [h.persisted]; exact hdisk), ?_, by simp⟩
  refine
    { h with
      persisted := by simp [Node.inaugurated, Journal.write, h.persisted]
      disk := by simpa [Node.inaugurated, Journal.write, h.persisted] using hdisk
      candidate := by simp [Node.inaugurated]
      leader := ?_
      commit := (h.commit.mono (hstep.extends hinv) le_rfl).extend (List.prefix_append _ _) }
  intro _
  refine ⟨⟨i, n.log.length, n.log ++ [noop]⟩, ?_, rfl, rfl, ?_, ?_⟩
  · simp [Ledger.elect, h.epoch, h.log, Node.inaugurated, noop]
  · simp [Ledger.elect, h.epoch, h.log, Node.inaugurated]
  · intro p m _ hm
    simp only [Node.inaugurated, List.getElem?_replicate] at hm
    split at hm
    · cases hm
      exact Nat.zero_le _
    · cases hm

theorem becomeLeader_simulates (hinv : Inv (quorums size) a) (h : NodeSim size i a n)
    (hrole : n.role = .candidate) (hcount : n.quorum ≤ n.votes.count true)
    (hl : n.becomeLeader now = .ok (n', out)) :
    ∃ a', Simulates size i a n a' n' out ∧ Reigns i a a' n n' := by
  obtain ⟨c, deadline, rfl, hc, hout, _⟩ := Node.becomeLeader_ok hl
  have hfirst := inaugurated_simulates hinv h hrole hcount
  have hcommit := hfirst.node.commitIndex (hinv.steps hfirst.trail.steps) rfl hc
  have hfinal : NodeSim size i (a.elect i ⟨n.term, []⟩)
      { n.inaugurated with commitIndex := c, heartbeatDeadline := deadline } := { hcommit with }
  refine ⟨_, ⟨hfirst.trail, hfinal, hfinal.broadcast rfl hout⟩, .inr ?_⟩
  refine ⟨rfl, (h.mandate hinv hrole hcount).1, n.log, rfl, ?_⟩
  simp [Ledger.elect, h.epoch, h.log, Node.inaugurated]

theorem standing_simulates (hinv : Inv (quorums size) a) (h : NodeSim size i a n)
    (deadline : Nat) (rng : UInt64) :
    Simulates size i a n (a.stand i (n.term + 1)) (n.standing deadline rng) [] := by
  have hlt : a.epoch i < n.term + 1 := by rw [h.epoch]; exact Nat.lt_succ_self _
  have hstep : Step (quorums size) i a (a.stand i (n.term + 1)) := .stand hlt
  have hdisk : DiskSim i (a.stand i (n.term + 1)) ⟨n.term + 1, some n.cfg.id, n.log⟩ :=
    ⟨by simp [Ledger.stand], by simp [Ledger.stand, h.id], h.log⟩
  refine ⟨Trail.refl.write hstep (by rw [h.persisted]; exact hdisk), ?_, by simp⟩
  refine
    { h with
      persisted := by simp [Node.standing, Journal.write, h.persisted]
      disk := by simpa [Node.standing, Journal.write, h.persisted] using hdisk
      votes_length := by simp [Node.standing, h.clusterSize]
      candidate := ?_
      leader := by simp [Node.standing]
      commit := h.commit.mono (hstep.extends hinv) (Nat.le_succ _) }
  intro _
  refine ⟨by simp [Ledger.stand, Node.standing, h.log], ?_, ?_⟩
  · intro r hr hlead
    have hle := (hinv.bid_le (hinv.reign_bid (t := n.term + 1) hr).1).1
    rw [hlead] at hle
    omega
  · intro p hp
    simp only [Node.standing, h.id, h.clusterSize, List.getElem?_set, List.length_replicate] at hp
    split at hp
    · next he =>
      subst he
      simp [Ledger.stand, Node.standing]
    · simp [List.getElem?_replicate] at hp

theorem startElection_simulates (hinv : Inv (quorums size) a) (h : NodeSim size i a n)
    (hs : n.startElection now = .ok (n', out)) :
    ∃ a', Simulates size i a n a' n' out ∧ Reigns i a a' n n' := by
  obtain ⟨deadline, rng, _, hcase⟩ := Node.startElection_ok hs
  have hstand := standing_simulates hinv h deadline rng
  have hinv' := hinv.steps hstand.trail.steps
  rcases hcase with ⟨hcount, hl⟩ | ⟨rfl, t, ht, rfl⟩
  · obtain ⟨a', hsim, hr⟩ := becomeLeader_simulates hinv' hstand.node rfl hcount hl
    exact ⟨a', hstand.trans hsim, hr.of_idle rfl (by simp [Node.standing])⟩
  · refine ⟨_, ⟨hstand.trail, hstand.node, ?_⟩, .inl ⟨rfl, by simp [Node.standing]⟩⟩
    intro o ho
    obtain ⟨p, _, rfl⟩ := List.mem_map.mp ho
    exact ⟨n.log, (hstand.node.candidate rfl).1, rfl, termAt_length_iff.mp ht⟩

theorem tick_simulates (hinv : Inv (quorums size) a) (h : NodeSim size i a n)
    (ht : n.tick now = .ok (n', out)) :
    ∃ a', Simulates size i a n a' n' out ∧ Reigns i a a' n n' := by
  rcases Node.tick_ok ht with ⟨rfl, rfl⟩ | ⟨hrole, deadline, rfl, hout⟩ | ⟨_, hs⟩
  · exact ⟨a, .idle h, .idle rfl rfl rfl⟩
  · have hnode : NodeSim size i a { n with heartbeatDeadline := deadline } := { h with }
    exact ⟨a, ⟨.refl, hnode, hnode.broadcast hrole hout⟩, .idle rfl rfl rfl⟩
  · exact startElection_simulates hinv h hs

theorem onRequestVote_simulates (hinv : Inv (quorums size) a) (h : NodeSim size i a n)
    {sender term lastLogIndex lastLogTerm : Nat}
    (hmsg : MessageSim size a ⟨sender, i, .requestVote term lastLogIndex lastLogTerm⟩)
    (hv : n.onRequestVote now sender term lastLogIndex lastLogTerm = .ok (n', out)) :
    ∃ a', Simulates size i a n a' n' out ∧ Reigns i a a' n n' := by
  rcases Node.onRequestVote_ok hv with ⟨rfl, rfl⟩ |
    ⟨rfl, hfree, ⟨t, ht, hup⟩, rfl, deadline, rng, rfl⟩
  · exact ⟨a, ⟨.refl, h, by simp [MessageSim]⟩, .idle rfl rfl rfl⟩
  · obtain ⟨b, hb, rfl, rfl⟩ := hmsg
    have hstep : Step (quorums size) i a (a.castVote i sender) := by
      refine .castVote (b := b) (by rw [h.epoch]; exact hb) ?_ ?_
      · rw [h.epoch, h.vote]
        exact hfree
      · rw [h.log]
        rw [Node.lastIndex, termAt_length_iff] at ht
        subst ht
        exact hup
    have hext := hstep.extends hinv
    have hvote : (a.castVote i sender).vote i n.term = some sender := by
      simp [Ledger.castVote, h.epoch]
    have hdisk : DiskSim i (a.castVote i sender) ⟨n.term, some sender, n.log⟩ :=
      ⟨h.epoch, hvote, h.log⟩
    refine ⟨a.castVote i sender,
      ⟨Trail.refl.write hstep (by rw [h.persisted]; exact hdisk), ?_, ?_⟩, .idle rfl rfl rfl⟩
    · refine
        { h with
          persisted := by simp [Journal.write, h.persisted]
          disk := by simpa [Journal.write, h.persisted] using hdisk
          candidate := ?_
          commit := h.commit.mono hext le_rfl }
      intro hrole
      obtain ⟨hbid, hreign, hvotes⟩ := h.candidate hrole
      exact ⟨hbid, hreign, fun p hp => hext.vote (hvotes p hp)⟩
    · simpa [MessageSim] using hvote

theorem onVoteResponse_simulates (hinv : Inv (quorums size) a) (h : NodeSim size i a n)
    {sender term : Nat} {granted : Bool}
    (hmsg : MessageSim size a ⟨sender, i, .voteResponse term granted⟩)
    (hv : n.onVoteResponse now sender term granted = .ok (n', out)) :
    ∃ a', Simulates size i a n a' n' out ∧ Reigns i a a' n n' := by
  rcases Node.onVoteResponse_ok hv with ⟨rfl, rfl⟩ | ⟨hrole, rfl, rfl, _, hcase⟩
  · exact ⟨a, .idle h, .idle rfl rfl rfl⟩
  · have hnode : NodeSim size i a { n with votes := n.votes.set sender true } := by
      refine { h with votes_length := by simp [h.votes_length], candidate := ?_ }
      intro _
      obtain ⟨hbid, hreign, hvotes⟩ := h.candidate hrole
      refine ⟨hbid, hreign, fun p hp => ?_⟩
      by_cases hps : sender = p
      · subst hps
        exact hmsg
      · exact hvotes p (by simpa [List.getElem?_set_ne hps] using hp)
    rcases hcase with ⟨hcount, hl⟩ | ⟨rfl, rfl⟩
    · obtain ⟨a', hsim, hr⟩ := becomeLeader_simulates hinv hnode hrole hcount hl
      exact ⟨a', ⟨hsim.trail, hsim.node, hsim.sent⟩, hr.of_idle rfl (by simp [hrole])⟩
    · exact ⟨a, ⟨.refl, hnode, by simp⟩, .idle rfl rfl rfl⟩

/-! ## Replication -/

theorem appended_simulates (hinv : Inv (quorums size) a) (h : NodeSim size i a n)
    (hrole : n.role = .leader) {r : Reign Nat Entry} (hr : a.reign n.term = some r)
    {e : Entry} (he : e.term = n.term) :
    Simulates size i a n (a.append i r e) (n.appended e) [] := by
  obtain ⟨r', hr', hlead, hledger, hown, hmatch⟩ := h.leader hrole
  rw [hr] at hr'
  cases hr'
  have hstep : Step (quorums size) i a (a.append i r e) :=
    .append (by rw [h.epoch]; exact hr) hlead (by rw [h.log, hledger]) (by rw [h.epoch]; exact he)
  have hext := hstep.extends hinv
  have hdisk : DiskSim i (a.append i r e) ⟨n.term, n.votedFor, n.log ++ [e]⟩ :=
    ⟨h.epoch, h.vote, by simp [Ledger.append, h.log]⟩
  refine ⟨Trail.refl.write hstep (by rw [h.persisted]; exact hdisk), ?_, by simp⟩
  refine
    { h with
      persisted := by simp [Node.appended, Journal.write, h.persisted]
      disk := by simpa [Node.appended, Journal.write, h.persisted] using hdisk
      candidate := by simp [Node.appended, hrole]
      leader := ?_
      commit := (h.commit.mono hext le_rfl).extend (List.prefix_append _ _) }
  intro _
  refine ⟨{ r with ledger := r.ledger ++ [e] }, ?_, hlead, ?_, ?_, ?_⟩
  · simp [Ledger.append, h.epoch, Node.appended]
  · simp [Node.appended, hledger]
  · simp [Ledger.append, h.epoch, h.log, Node.appended]
  · exact fun p m hpi hm => (hmatch p m hpi hm).trans (hext.ack _ _)

theorem propose_simulates (hinv : Inv (quorums size) a) (h : NodeSim size i a n)
    {command : List UInt8} {index : Nat}
    (hp : n.propose now command = .ok (n', .ok (index, out))) :
    ∃ a' r, Simulates size i a n a' n' out ∧ n.role = .leader ∧ n'.role = .leader ∧
      n'.term = n.term ∧ a.reign n.term = some r ∧ r.leader = i ∧
      index = r.ledger.length + 1 ∧
      a'.reign = Function.update a.reign n.term
        (some { r with ledger := r.ledger ++ [⟨n.term, command⟩] }) := by
  rcases Node.propose_ok hp with ⟨_, _, he⟩ | ⟨hrole, c, out', rfl, hc, he, hout, _⟩
  · cases he
  · cases he
    obtain ⟨r, hr, hlead, hledger, _, _⟩ := h.leader hrole
    have hfirst := appended_simulates hinv h hrole hr (e := ⟨n.term, command⟩) rfl
    have hfinal := hfirst.node.commitIndex (hinv.steps hfirst.trail.steps) hrole hc
    refine ⟨_, r, ⟨hfirst.trail, hfinal, hfinal.broadcast hrole hout⟩, hrole, hrole, rfl, hr,
      hlead, ?_, ?_⟩
    · rw [hledger]
      rfl
    · simp [Ledger.append, h.epoch]

theorem onAppendResponse_simulates (hinv : Inv (quorums size) a) (h : NodeSim size i a n)
    {sender term matchIndex : Nat} {success : Bool}
    (hmsg : MessageSim size a ⟨sender, i, .appendResponse term success matchIndex⟩)
    (hr : n.onAppendResponse sender term success matchIndex = .ok (n', out)) :
    ∃ a', Simulates size i a n a' n' out ∧ Reigns i a a' n n' := by
  rcases Node.onAppendResponse_ok hr with ⟨_, rfl, rfl⟩ | ⟨hrole, rfl, known, hknown, hcase⟩
  · exact ⟨a, .idle h, .idle rfl rfl rfl⟩
  rcases hcase with ⟨rfl, hcommit, hout⟩ | ⟨rfl, next, o, _, rfl, ho, rfl⟩
  · obtain ⟨c, rfl, hc⟩ := Node.advanceCommit_ok hcommit
    have hnode : NodeSim size i a
        (n.acknowledged sender (max known (min matchIndex n.lastIndex))) := by
      refine { h with leader := ?_ }
      intro _
      obtain ⟨r, hr, hlead, hledger, hown, hmatch⟩ := h.leader hrole
      refine ⟨r, hr, hlead, hledger, hown, fun p m hpi hm => ?_⟩
      by_cases hps : sender = p
      · subst hps
        have hlt := (List.getElem?_eq_some_iff.mp hknown).1
        simp only [Node.acknowledged, List.getElem?_set_self hlt, Option.some.injEq] at hm
        subst hm
        exact max_le (hmatch sender known hpi hknown) ((min_le_left _ _).trans hmsg)
      · exact hmatch p m hpi (by simpa [Node.acknowledged, List.getElem?_set_ne hps] using hm)
    have hfinal := hnode.commitIndex hinv hrole hc
    refine ⟨a, ⟨.refl, hfinal, ?_⟩, .idle rfl rfl rfl⟩
    rcases hout with ⟨_, rfl⟩ | ⟨_, o, ho, rfl⟩
    · simp
    · intro o' ho'
      rw [List.mem_singleton.mp ho']
      exact hfinal.appendFor hrole ho
  · have hnode : NodeSim size i a { n with
        nextIndex := n.nextIndex.set sender (max (known + 1) (min next (matchIndex + 1))) } :=
      { h with }
    refine ⟨a, ⟨.refl, hnode, ?_⟩, .idle rfl rfl rfl⟩
    intro o' ho'
    rw [List.mem_singleton.mp ho']
    exact hnode.appendFor hrole ho

section Append

variable {r : Reign Nat Entry} {sender prevIndex prevTerm leaderCommit deadline : Nat}
  {rng : UInt64} {entries : List Entry}

theorem NodeSim.following (h : NodeSim size i a n) :
    NodeSim size i a (n.following sender deadline rng) :=
  { h with candidate := by simp [Node.following], leader := by simp [Node.following] }

theorem logMatching_of_sourced {l l' : List Entry} (h : a.Sourced l) (h' : a.Sourced l') :
    LogMatching l l' := fun _ _ _ he he' hterm => h.matching h' he he' hterm

theorem acknowledge_simulates (sender : Nat) (h : NodeSim size i a n) (hr : a.reign n.term = some r)
    (hrole : n.role = .follower) {m : Nat} (hm : AgreeUpTo m n.log r.ledger)
    (hcommit : a.Certified (quorums size) n.term r.ledger leaderCommit)
    (hinv : Inv (quorums size) a) :
    Simulates size i a n (a.acknowledge i m) (n.committing leaderCommit m)
      [⟨sender, .appendResponse n.term true m⟩] := by
  have hstep : Step (quorums size) i a (a.acknowledge i m) :=
    .acknowledge (by rw [h.epoch]; exact hr) (by rw [h.log]; exact hm)
  have hext := hstep.extends hinv
  have hdisk : DiskSim i (a.acknowledge i m) n.storage.current :=
    ⟨h.disk.epoch, h.disk.vote, h.disk.log⟩
  have hnode : NodeSim size i (a.acknowledge i m) n :=
    { h with
      disk := hdisk
      candidate := by simp [hrole]
      leader := by simp [hrole]
      commit := h.commit.mono hext le_rfl }
  refine ⟨by rw [Node.committing_storage]; exact Trail.refl.silent hstep hdisk, ?_, ?_⟩
  · unfold Node.committing
    split
    · refine { hnode with commit := ?_ }
      exact (hcommit.mono hext le_rfl).of_agree (hm.mono (Nat.min_le_right _ _))
        (Nat.min_le_left _ _)
    · exact hnode
  · simp [MessageSim, Ledger.acknowledge, h.epoch]

theorem truncated_simulates (hinv : Inv (quorums size) a) (h : NodeSim size i a n)
    (hrole : n.role = .follower) (hr : a.reign n.term = some r) {k : Nat} {e e' : Entry}
    (hown : n.log[k]? = some e) (htheirs : r.ledger[k]? = some e') (hne : e.term ≠ e'.term) :
    Simulates size i a n (a.truncate i k) (n.truncated k) [] := by
  have hstep : Step (quorums size) i a (a.truncate i k) :=
    .truncate (by rw [h.epoch]; exact hr) (by rw [h.log]; exact hown) htheirs hne
  have hdisk : DiskSim i (a.truncate i k) ⟨n.term, n.votedFor, n.log.take k⟩ :=
    ⟨h.epoch, h.vote, by simp [Ledger.truncate, h.log]⟩
  refine ⟨Trail.refl.write hstep (by rw [h.persisted]; exact hdisk), ?_, by simp⟩
  exact
    { h with
      persisted := by simp [Node.truncated, Journal.write, h.persisted]
      disk := by simpa [Node.truncated, Journal.write, h.persisted] using hdisk
      candidate := by simp [Node.truncated, hrole]
      leader := by simp [Node.truncated, hrole]
      commit := h.commit_steps hinv (.single ⟨i, hstep⟩) h.epoch hdisk.log }

theorem extended_simulates (hinv : Inv (quorums size) a) (h : NodeSim size i a n)
    (hrole : n.role = .follower) (hr : a.reign n.term = some r) {m : Nat}
    (hlog : n.log ++ entries = r.ledger.take m) :
    Simulates size i a n (a.copy i r m) (n.extended entries) [] := by
  have hstep : Step (quorums size) i a (a.copy i r m) :=
    .copy (by rw [h.epoch]; exact hr) (by rw [h.log, ← hlog]; exact List.prefix_append _ _)
  have hdisk : DiskSim i (a.copy i r m) ⟨n.term, n.votedFor, n.log ++ entries⟩ :=
    ⟨h.epoch, h.vote, by simp [Ledger.copy, hlog]⟩
  refine ⟨Trail.refl.write hstep (by rw [h.persisted]; exact hdisk), ?_, by simp⟩
  exact
    { h with
      persisted := by simp [Node.extended, Journal.write, h.persisted]
      disk := by simpa [Node.extended, Journal.write, h.persisted] using hdisk
      candidate := by simp [Node.extended, hrole]
      leader := by simp [Node.extended, hrole]
      commit := h.commit_steps hinv (.single ⟨i, hstep⟩) h.epoch hdisk.log }

theorem spliced_simulates (hinv : Inv (quorums size) a) (h : NodeSim size i a n)
    (hrole : n.role = .follower) (hr : a.reign n.term = some r) {j : Nat} {e : Entry}
    (he : entries[j]? = some e) (hag : AgreeUpTo (prevIndex + j) n.log r.ledger)
    (hne : ∀ e', n.log[prevIndex + j]? = some e' → e'.term ≠ e.term)
    (hslice : entries <+: r.ledger.drop prevIndex) :
    ∃ a', Simulates size i a n a' (n.spliced (prevIndex + j) (entries.drop j)) [] ∧
      a'.reign = a.reign := by
  have hj := (List.getElem?_eq_some_iff.mp he).1
  have htheirs : r.ledger[prevIndex + j]? = some e := by
    rw [← List.getElem?_drop, ← (AgreeUpTo.of_isPrefix hslice le_rfl).getElem?_eq hj, he]
  have htake := take_append_eq_take hag hslice hj.le
  unfold Node.spliced
  split
  · next hlt =>
    have hown := List.getElem?_eq_getElem hlt
    have htrunc := truncated_simulates hinv h hrole hr hown htheirs (hne _ hown)
    have hinv' := hinv.steps htrunc.trail.steps
    exact ⟨_, htrunc.trans (extended_simulates hinv' htrunc.node hrole hr htake), rfl⟩
  · next hge =>
    rw [List.take_of_length_le (Nat.le_of_not_lt hge)] at htake
    exact ⟨_, extended_simulates hinv h hrole hr htake, rfl⟩

theorem mergeEntries_simulates (hinv : Inv (quorums size) a) (h : NodeSim size i a n)
    (hrole : n.role = .follower) (hr : a.reign n.term = some r)
    (hprev : AgreeUpTo prevIndex n.log r.ledger) (hslice : entries <+: r.ledger.drop prevIndex)
    (hm : n.mergeEntries prevIndex 0 entries = .ok n') :
    ∃ a', Simulates size i a n a' n' [] ∧ a'.reign = a.reign ∧ n'.role = .follower ∧
      n'.term = n.term ∧ AgreeUpTo (prevIndex + entries.length) n'.log r.ledger := by
  have hlog : a.Sourced n.log := by
    rw [← h.log]
    exact hinv.log_sourced i
  have hmatch := logMatching_of_sourced hlog (hinv.reign_sourced hr)
  rcases Node.mergeEntries_ok hprev.1 hm with ⟨rfl, hst⟩ | ⟨j, e, he, hst, _, hne, rfl⟩
  · exact ⟨a, .idle h, rfl, hrole, rfl, hmatch.agree_of_sameTerms hprev hst hslice⟩
  · have hj := (List.getElem?_eq_some_iff.mp he).1
    have hag := hmatch.agree_of_sameTerms hprev hst ((List.take_prefix j _).trans hslice)
    rw [List.length_take, min_eq_left hj.le] at hag
    obtain ⟨a', hsim, hreign⟩ := spliced_simulates hinv h hrole hr he hag hne hslice
    rw [Nat.add_zero] at *
    refine ⟨a', hsim, hreign, by simpa using hrole, by simp, ?_⟩
    rw [Node.spliced_log, take_append_eq_take hag hslice hj.le]
    refine (AgreeUpTo.refl ?_).take_left le_rfl
    have hlen := hslice.length_le
    have hprev' := hprev.2.1
    rw [List.length_drop] at hlen
    omega

theorem onAppendEntries_simulates (hinv : Inv (quorums size) a) (h : NodeSim size i a n)
    {term : Nat} (hterm : term ≤ n.term)
    (hmsg : MessageSim size a
      ⟨sender, i, .appendEntries term prevIndex prevTerm entries leaderCommit⟩)
    (he : n.onAppendEntries now sender term prevIndex prevTerm entries leaderCommit =
      .ok (n', out)) :
    ∃ a', Simulates size i a n a' n' out ∧ Reigns i a a' n n' := by
  rcases Node.onAppendEntries_ok he with ⟨_, rfl, rfl⟩ | ⟨hge, _, deadline, rng, hcase⟩
  · exact ⟨a, ⟨.refl, h, by simp [MessageSim]⟩, .idle rfl rfl rfl⟩
  obtain rfl : term = n.term := by omega
  have hf : NodeSim size i a (n.following sender deadline rng) := h.following
  rcases hcase with ⟨_, rfl, rfl⟩ | ⟨_, hprev, m, hm, rfl, rfl⟩
  · exact ⟨a, ⟨.refl, hf, by simp [MessageSim]⟩, .inl ⟨rfl, by simp [Node.following]⟩⟩
  obtain ⟨r, hr, _, ⟨_, hprev', hslice⟩, hcommit⟩ := hmsg
  have hlog : a.Sourced n.log := by
    rw [← h.log]
    exact hinv.log_sourced i
  have hag := (logMatching_of_sourced hlog (hinv.reign_sourced hr)).agree_of_termAt hprev hprev'
  obtain ⟨a', hsim, hreign, hrole, hmterm, hag'⟩ :=
    mergeEntries_simulates hinv hf rfl hr hag hslice hm
  have hinv' := hinv.steps hsim.trail.steps
  have hr' : a'.reign m.term = some r := by
    rw [hreign, hmterm]
    exact hr
  have hcommit' := hcommit.mono (hsim.extends hinv) le_rfl
  have hack := acknowledge_simulates sender hsim.node hr' hrole hag'
    (by rw [hmterm]; exact hcommit') hinv'
  refine ⟨_, Simulates.trans ⟨hsim.trail, hsim.node, hsim.sent⟩ hack, .inl ⟨hreign, ?_⟩⟩
  simp [hrole]

end Append

theorem receive_simulates (hinv : Inv (quorums size) a) (h : NodeSim size i a n) {sender : Nat}
    {msg : Message} (hterm : msg.term ≤ n.term) (hmsg : MessageSim size a ⟨sender, i, msg⟩)
    (hr : n.receive now sender msg = .ok (n', out)) :
    ∃ a', Simulates size i a n a' n' out ∧ Reigns i a a' n n' := by
  cases msg with
  | requestVote term lastLogIndex lastLogTerm => exact onRequestVote_simulates hinv h hmsg hr
  | voteResponse term granted => exact onVoteResponse_simulates hinv h hmsg hr
  | appendEntries term prevIndex prevTerm entries leaderCommit =>
    exact onAppendEntries_simulates hinv h hterm hmsg hr
  | appendResponse term success matchIndex => exact onAppendResponse_simulates hinv h hmsg hr

theorem handle_simulates (hinv : Inv (quorums size) a) (h : NodeSim size i a n) {sender : Nat}
    {msg : Message} (hmsg : MessageSim size a ⟨sender, i, msg⟩)
    (hh : n.handle now sender msg = .ok (n', out)) :
    ∃ a', Simulates size i a n a' n' out ∧ Reigns i a a' n n' := by
  rcases Node.handle_ok hh with ⟨_, rfl, rfl⟩ | ⟨_, _, ⟨hle, hr⟩ | ⟨hlt, f, hf, hr⟩⟩
  · exact ⟨a, .idle h, .idle rfl rfl rfl⟩
  · exact receive_simulates hinv h hle hmsg hr
  · obtain ⟨b, hdown, hreign, hrole, hterm⟩ := stepDown_simulates hinv h hlt hf
    have hinv' := hinv.steps hdown.trail.steps
    obtain ⟨a', hsim, hrs⟩ := receive_simulates hinv' hdown.node hterm.ge
      (hmsg.mono (hdown.extends hinv)) hr
    refine ⟨a', hdown.trans hsim, ?_⟩
    rcases hrs with ⟨he, hl⟩ | hopen
    · exact .inl ⟨he.trans hreign, fun hn => absurd (hl hn).1 (by simp [hrole])⟩
    · rw [hreign] at hopen
      exact .inr hopen

end Landsraad
