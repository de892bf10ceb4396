import Landsraad.Raft.NodePanics
import Landsraad.Raft.Simulation

/-!
# Safety of the protocol

What holds in every run of a cluster of any size, whatever the network loses, duplicates,
delays or reorders and wherever nodes crash. Two states of one run may lie arbitrarily far
apart, with crashes and restarts in between.
-/

namespace Landsraad

open ReplicatedLog ReplicatedLog.Ledger

variable {size : Nat} {s s' : System} {i j k : Nat} {n m : Node Disk}

theorem System.node_of_up {d : List (Nat × Entry)} (h : s.slots i = .up n d) :
    s.node i = some n := by
  simp [System.node, h]

theorem SystemSim.node {a : History} (h : SystemSim size a s) (hi : s.node i = some n) :
    NodeSim size i a n := by
  have hslot := h.slot i
  unfold System.node at hi
  split at hi
  · next he =>
    cases hi
    rwa [he] at hslot
  · cases hi

theorem Moments.simulates (h : System.Moments size s s') :
    ∃ a a', SystemSim size a s ∧ SystemSim size a' s' ∧ Steps (quorums size) a a' ∧
      ∀ i, Written size i a a' (s.slots i).disk (s'.slots i).disk := by
  obtain ⟨before, after, hb, ha⟩ := h
  exact run_run_simulates hb ha

theorem AgreeUpTo.entry {l l' : List Entry} {c : Nat} (h : AgreeUpTo c l l') (hk : 1 ≤ k)
    (hkc : k ≤ c) : ∃ e, l[k - 1]? = some e ∧ l'[k - 1]? = some e := by
  have hlt : k - 1 < l.length := by
    have := h.1
    omega
  refine ⟨l[k - 1], List.getElem?_eq_getElem hlt, ?_⟩
  rw [← h.getElem?_eq (by omega), List.getElem?_eq_getElem hlt]

/-! ## Agreement on what is committed -/

/-- Whatever two nodes have committed, at any two moments, is equal index by index. -/
theorem state_machine_safety (h : System.Moments size s s') (hi : s.node i = some n)
    (hj : s'.node j = some m) (hk : 1 ≤ k) (hkn : k ≤ n.commitIndex) (hkm : k ≤ m.commitIndex) :
    ∃ e, n.log[k - 1]? = some e ∧ m.log[k - 1]? = some e := by
  obtain ⟨a, a', hsim, hsim', hsteps, _⟩ := Moments.simulates h
  have hn := (hsim.node hi).commit.mono (hsteps.extends hsim.inv) le_rfl
  exact AgreeUpTo.entry (hn.agree hsim'.inv (hsim'.node hj).commit hkn hkm) hk le_rfl

theorem state_machine_safety_succession :
    ∃ e, System.firstLeader.log[0]? = some e ∧ System.secondLeader.log[0]? = some e :=
  state_machine_safety System.moments_reigned_succeeded System.node_firstLeader
    System.node_secondLeader le_rfl (by decide +kernel) (by decide +kernel)

/-- A term has at most one leader in the whole history of the cluster. -/
theorem election_safety (h : System.Moments size s s') (hi : s.node i = some n)
    (hj : s'.node j = some m) (hn : n.role = .leader) (hm : m.role = .leader)
    (hterm : n.term = m.term) : i = j := by
  obtain ⟨a, a', hsim, hsim', hsteps, _⟩ := Moments.simulates h
  obtain ⟨r, hr, hlead, _⟩ := (hsim.node hi).leader hn
  obtain ⟨r', hr', hlead', _⟩ := (hsim'.node hj).leader hm
  obtain ⟨r'', hr'', he, _⟩ := (hsteps.extends hsim.inv).reign hr
  rw [hterm, hr'] at hr''
  cases hr''
  rw [← hlead, ← hlead', he]

/-- The node that leads a term. -/
def System.leaderOf (size : Nat) (s : System) (term : Nat) : Option Nat :=
  (List.range size).find? fun i =>
    (s.node i).any fun n => decide (n.role = .leader ∧ n.term = term)

theorem System.leaderOf_eq_some {term : Nat} (h : s.leaderOf size term = some i) :
    ∃ n, s.node i = some n ∧ n.role = .leader ∧ n.term = term := by
  have hfound := List.find?_some h
  cases hn : s.node i with
  | none => simp [hn] at hfound
  | some n =>
    rw [hn] at hfound
    exact ⟨n, rfl, of_decide_eq_true hfound⟩

theorem election_safety_reigned :
    System.opened.leaderOf 3 1 = System.reigned.leaderOf 3 1 ∧
      (System.reigned.leaderOf 3 1).isSome := by
  have hsome : (System.opened.leaderOf 3 1).isSome ∧ (System.reigned.leaderOf 3 1).isSome := by
    decide +kernel
  obtain ⟨i, hi⟩ := Option.isSome_iff_exists.mp hsome.1
  obtain ⟨j, hj⟩ := Option.isSome_iff_exists.mp hsome.2
  obtain ⟨n, hn, hrole, hterm⟩ := System.leaderOf_eq_some hi
  obtain ⟨m, hm, hrole', hterm'⟩ := System.leaderOf_eq_some hj
  have hsame : i = j := election_safety System.moments_opened_reigned hn hm hrole hrole'
    (hterm.trans hterm'.symm)
  exact ⟨by rw [hi, hj, hsame], hsome.2⟩

/-! ## Votes -/

/-- The storage is past the term `t`, or in it with its vote given to `c`. -/
def Persistent.Pledged (p : Persistent) (t c : Nat) : Prop :=
  t < p.term ∨ p.term = t ∧ p.votedFor = some c

instance (p : Persistent) (t c : Nat) : Decidable (p.Pledged t c) :=
  inferInstanceAs (Decidable (_ ∨ _))

theorem DiskSim.pledged {a : History} {p : Persistent} {t c : Nat} (h : DiskSim i a p)
    (hinv : Inv (quorums size) a) (hv : a.vote i t = some c) : p.Pledged t c := by
  have hle := hinv.vote_le hv
  rw [h.epoch] at hle
  rcases Nat.lt_or_eq_of_le hle with hlt | rfl
  · exact .inl hlt
  · exact .inr ⟨rfl, by rw [← h.vote, hv]⟩

/-- A vote that was granted in a message, that a candidate counts or that a leader was elected with
binds the storage of the voter at every later moment, and a majority of storages is bound to the
leader of a term. -/
theorem votes_bind (h : System.Moments size s s') :
    (∀ p c t, ⟨p, c, .voteResponse t true⟩ ∈ s.sent →
      (s'.slots p).disk.current.Pledged t c) ∧
    (∀ i n p, s.node i = some n → n.role = .candidate → n.votes[p]? = some true →
      (s'.slots p).disk.current.Pledged n.term i) ∧
    ∀ i n, s.node i = some n → n.role = .leader →
      size < 2 * ((Finset.range size).filter fun p =>
        (s'.slots p).disk.current.Pledged n.term i).card := by
  obtain ⟨a, a', hsim, hsim', hsteps, _⟩ := Moments.simulates h
  have hext := hsteps.extends hsim.inv
  have hbound : ∀ {p t c}, a.vote p t = some c → (s'.slots p).disk.current.Pledged t c :=
    fun {p t c} hv => (hsim'.slot p).disk.pledged hsim'.inv (hext.vote hv)
  refine ⟨fun p c t hsent => hbound (hsim.sent _ hsent), fun i n p hn hrole hcounted => ?_,
    fun i n hn hrole => ?_⟩
  · exact hbound (((hsim.node hn).candidate hrole).2.2 p hcounted)
  · obtain ⟨r, hr, hlead, _⟩ := (hsim.node hn).leader hrole
    obtain ⟨Q, hQ, hall⟩ := hsim.inv.mandate hr
    have hmajority := majority_lt_filter
      (P := fun p => (s'.slots p).disk.current.Pledged n.term i) hQ
      fun w hw => hbound (hlead ▸ (hall w hw).1)
    rwa [Finset.card_range] at hmajority

theorem votes_bind_succession :
    3 < 2 * ((Finset.range 3).filter fun p =>
      (System.succeeded.slots p).disk.current.Pledged 1 0).card := by
  have hleader := (votes_bind System.moments_reigned_succeeded).2.2 0 _ System.node_firstLeader
  have hterm : System.firstLeader.term = 1 := by decide +kernel
  rw [hterm] at hleader
  exact hleader (by decide +kernel)

/-! ## What leaders hold -/

theorem certified_in_reign {a : History} (hinv : Inv (quorums size) a) {t u c : Nat}
    {l : List Entry} {r : Reign Nat Entry} (hc : a.Certified (quorums size) t l c) (htu : t ≤ u)
    (hr : a.reign u = some r) : AgreeUpTo c l r.ledger := by
  rcases hc with rfl | ⟨v, p, r', hv, hr', hcom, hcp, hag⟩
  · exact .zero _ _
  rcases Nat.lt_or_eq_of_le (hv.trans htu) with hlt | rfl
  · exact hag.trans ((Ledger.CommittedAt.complete hinv hcom hr' hlt hr).mono hcp).symm
  · rw [hr] at hr'
    cases hr'
    exact hag

/-- At an earlier moment of a later reign the same holds: a position committed in an older
term lies below the base its reign was won with. -/
private theorem certified_in_earlier_reign {a a' : History} (hinv : Inv (quorums size) a)
    (hs : Steps (quorums size) a a') {t u c : Nat} {l : List Entry} {r : Reign Nat Entry}
    (hc : a'.Certified (quorums size) t l c) (htu : t < u) (hr : a.reign u = some r) :
    AgreeUpTo c l r.ledger := by
  have hinv' := hinv.steps hs
  obtain ⟨r', hr', _, hbase, hp⟩ := (hs.extends hinv).reign hr
  rcases hc with rfl | ⟨v, p, rv, hv, hrv, hcom, hcp, hag⟩
  · exact .zero _ _
  · have hle := committed_le_base hinv' hcom (by omega) hr'
    have hlen := (hinv.reign_bid hr).2
    have hag' := (Ledger.CommittedAt.complete hinv' hcom hrv (by omega) hr').mono hcp
    exact hag.trans (hag'.symm.of_prefix_right hp (by omega))

/-- An entry that a node, leader or not, has committed is in the log of every leader of a later
term, at every moment of the run, before or after. -/
theorem leader_completeness (h : System.Moments size s s' ∨ System.Moments size s' s)
    (hi : s.node i = some n) (hj : s'.node j = some m) (hm : m.role = .leader)
    (hterm : n.term < m.term) (hk : 1 ≤ k) (hkn : k ≤ n.commitIndex) :
    ∃ e, n.log[k - 1]? = some e ∧ m.log[k - 1]? = some e := by
  rcases h with h | h
  · obtain ⟨a, a', hsim, hsim', hsteps, _⟩ := Moments.simulates h
    obtain ⟨r, hr, _, hledger, _⟩ := (hsim'.node hj).leader hm
    have hc := (hsim.node hi).commit.mono (hsteps.extends hsim.inv) le_rfl
    rw [← hledger]
    exact AgreeUpTo.entry (certified_in_reign hsim'.inv hc hterm.le hr) hk hkn
  · obtain ⟨a', a, hsim', hsim, hsteps, _⟩ := Moments.simulates h
    obtain ⟨r, hr, _, hledger, _⟩ := (hsim'.node hj).leader hm
    rw [← hledger]
    exact AgreeUpTo.entry
      (certified_in_earlier_reign hsim'.inv hsteps (hsim.node hi).commit hterm hr) hk hkn

theorem leader_completeness_succession :
    ∃ e, System.firstLeader.log[0]? = some e ∧ System.secondLeader.log[0]? = some e :=
  leader_completeness (.inl System.moments_reigned_succeeded) System.node_firstLeader
    System.node_secondLeader (by decide +kernel) (by decide +kernel) le_rfl (by decide +kernel)

/-! ## Logs -/

theorem SystemSim.sourced {a : History} (h : SystemSim size a s) {l : List Entry}
    (hl : s.HasLog l) : a.Sourced l := by
  rcases hl with ⟨i, n, hi, rfl⟩ | ⟨i, rfl⟩
  · rw [← (h.node hi).log]
    exact h.inv.log_sourced i
  · rw [← (h.slot i).disk.log]
    exact h.inv.log_sourced i

/-- Two logs with entries of one term at the same index are equal up to that index. -/
theorem log_matching {acts : List Action} (h : System.initial.run size acts = some s)
    {l l' : List Entry} (hl : s.HasLog l) (hl' : s.HasLog l') {e e' : Entry} (hk : 1 ≤ k)
    (he : l[k - 1]? = some e) (he' : l'[k - 1]? = some e') (hterm : e.term = e'.term) :
    ∀ x, 1 ≤ x → x ≤ k → l[x - 1]? = l'[x - 1]? := by
  obtain ⟨a, hsim, _, _⟩ := run_simulates (.initial size) h
  have hag := (hsim.sourced hl).matching (hsim.sourced hl') he he' hterm
  exact fun x _ hx => hag.getElem?_eq (by omega)

theorem log_matching_succession :
    System.secondLeader.log[0]? = (System.succeeded.slots 0).disk.current.log[0]? :=
  log_matching (Run.exec_append_eq_some.mpr ⟨_, System.run_reigned, System.run_succession⟩)
    (.inl ⟨1, _, System.node_secondLeader, rfl⟩) (.inr ⟨0, rfl⟩)
    (Nat.le_succ 1)
    (by decide +kernel : System.secondLeader.log[1]? = some ⟨1, [7]⟩)
    (by decide +kernel : (System.succeeded.slots 0).disk.current.log[1]? = some ⟨1, [7]⟩) rfl
    1 le_rfl (Nat.le_succ 1)

/-- What a node has committed is on a majority of the storages then and ever after, also
when nodes crash between two storage writes of a handler. -/
theorem committed_durable (h : System.Moments size s s') (hi : s.node i = some n) (hk : 1 ≤ k)
    (hkn : k ≤ n.commitIndex) {e : Entry} (he : n.log[k - 1]? = some e) :
    size < 2 * ((Finset.range size).filter fun p =>
      (s'.slots p).disk.current.log[k - 1]? = some e).card := by
  obtain ⟨a, a', hsim, hsim', hsteps, _⟩ := Moments.simulates h
  have hc := (hsim.node hi).commit.mono (hsteps.extends hsim.inv) le_rfl
  rcases hc with h0 | ⟨u, p, r, _, hr, hcom, hcp, hag⟩
  · omega
  obtain ⟨Q, hQ, hall⟩ := Ledger.CommittedAt.durable hsim'.inv hcom hr
  have hsub : Q ⊆ (Finset.range size).filter fun p =>
      (s'.slots p).disk.current.log[k - 1]? = some e := by
    intro w hw
    refine Finset.mem_filter.mpr ⟨hQ.1 hw, ?_⟩
    rw [← (hsim'.slot w).disk.log, (hall w hw).getElem?_eq (by omega),
      ← hag.getElem?_eq (by omega), he]
  have hcard := majority_card_lt hQ
  rw [Finset.card_range] at hcard
  have := Finset.card_le_card hsub
  omega

theorem committed_durable_succession :
    3 < 2 * ((Finset.range 3).filter fun p =>
      (System.succeeded.slots p).disk.current.log[0]? = some ⟨1, []⟩).card :=
  committed_durable System.moments_reigned_succeeded System.node_firstLeader le_rfl
    (by decide +kernel) (by decide +kernel)

theorem SystemSim.majority_holds {a a' : History} (hsim : SystemSim size a s)
    (hsim' : SystemSim size a' s') (hsteps : Steps (quorums size) a a')
    (hn : s.node i = some n) (hpos : 0 < n.commitIndex) : ∃ Q, (quorums size).IsQuorum Q ∧
      ∀ w ∈ Q, AgreeUpTo n.commitIndex (s'.slots w).disk.current.log n.log := by
  have hc := (hsim.node hn).commit.mono (hsteps.extends hsim.inv) le_rfl
  rcases hc with hzero | ⟨u, p, r, _, hr, hcom, hcp, hag⟩
  · omega
  obtain ⟨Q, hQ, hall⟩ := Ledger.CommittedAt.durable hsim'.inv hcom hr
  refine ⟨Q, hQ, fun w hw => ?_⟩
  rw [← (hsim'.slot w).disk.log]
  exact ((hall w hw).mono hcp).trans hag.symm

/-! ## What is never removed -/

theorem leader_log_grows (h : System.Moments size s s') (hi : s.node i = some n)
    (hj : s'.node i = some m) (hn : n.role = .leader) (hm : m.role = .leader)
    (hterm : n.term = m.term) : n.log <+: m.log := by
  obtain ⟨a, a', hsim, hsim', hsteps, _⟩ := Moments.simulates h
  obtain ⟨r, hr, _, hledger, _⟩ := (hsim.node hi).leader hn
  obtain ⟨r', hr', _, hledger', _⟩ := (hsim'.node hj).leader hm
  obtain ⟨r'', hr'', _, _, hp⟩ := (hsteps.extends hsim.inv).reign hr
  rw [hterm, hr'] at hr''
  cases hr''
  rwa [hledger, hledger'] at hp

theorem committed_kept_in_storage (h : System.Moments size s s') (hi : s.node i = some n) :
    ∃ newer, (s'.slots i).disk.states = newer ++ (s.slots i).disk.states ∧
      ∀ p ∈ newer, n.commitIndex ≤ p.log.length ∧
        p.log.take n.commitIndex = n.log.take n.commitIndex := by
  obtain ⟨a, a', hsim, _, _, hwritten⟩ := Moments.simulates h
  obtain ⟨newer, hstates, hall⟩ := hwritten i
  refine ⟨newer, hstates, fun p hp => ?_⟩
  obtain ⟨b, hb, _, hd⟩ := hall p hp
  have hag := (hsim.node hi).certified.agree_later hsim.inv hb
  rw [hd.log, (hsim.node hi).log] at hag
  exact ⟨hag.1, hag.take_eq⟩

theorem committed_kept_in_log (h : System.Moments size s s') (hi : s.node i = some n)
    (hj : s'.node i = some m) : n.commitIndex ≤ m.log.length ∧
      m.log.take n.commitIndex = n.log.take n.commitIndex ∧
      m.takeCommitted ≠ .error .outOfRange := by
  obtain ⟨a, a', hsim, hsim', hsteps, _⟩ := Moments.simulates h
  have hag := (hsim.node hi).certified.agree_later hsim.inv hsteps
  rw [(hsim'.node hj).log, (hsim.node hi).log] at hag
  exact ⟨hag.1, hag.take_eq, Node.takeCommitted_inBounds (hsim'.node hj).commit.le_length⟩

theorem not_leader_of_sent {a : History} (hsim : SystemSim size a s) (hi : s.node i = some n)
    {sender prevIndex prevTerm leaderCommit : Nat} {entries : List Entry}
    (hsent : ⟨sender, i, .appendEntries n.term prevIndex prevTerm entries leaderCommit⟩ ∈ s.sent)
    (hne : sender ≠ n.cfg.id) : n.role ≠ .leader := by
  intro hrole
  have hnode := hsim.node hi
  obtain ⟨r, hr, hlead, _⟩ := hnode.leader hrole
  obtain ⟨r', hr', hlead', _⟩ := hsim.sent _ hsent
  rw [hr] at hr'
  cases hr'
  rw [hnode.id] at hne
  exact hne (hlead'.symm.trans hlead)

theorem handle_sent_unasserted {a : History} (hsim : SystemSim size a s) (hi : s.node i = some n)
    {sender now : Nat} {msg : Message} (hsent : ⟨sender, i, msg⟩ ∈ s.sent) :
    Checked.PanicsOnly Unasserted (n.handle now sender msg) := by
  apply Node.handle_unasserted n now sender msg
  rintro prevIndex prevTerm entries leaderCommit rfl hne
  exact not_leader_of_sent hsim hi hsent hne

/-- While a node leads a term its log only grows at the end; no storage write and no later log
of a node loses an index the node had committed, so that delivery stays inside the log; and no
handler of a sent message violates the assertion that a leader never receives an AppendEntries
of its own term. -/
theorem leader_append_only_committed_kept :
    (∀ size s s' i n m, System.Moments size s s' → s.node i = some n → s'.node i = some m →
      n.role = .leader → m.role = .leader → n.term = m.term → n.log <+: m.log) ∧
    (∀ size s s' i n, System.Moments size s s' → s.node i = some n →
      (∃ newer, (s'.slots i).disk.states = newer ++ (s.slots i).disk.states ∧
        ∀ p ∈ newer, n.commitIndex ≤ p.log.length ∧
          p.log.take n.commitIndex = n.log.take n.commitIndex) ∧
      (∀ m, s'.node i = some m → n.commitIndex ≤ m.log.length ∧
        m.log.take n.commitIndex = n.log.take n.commitIndex ∧
        m.takeCommitted ≠ .error .outOfRange)) ∧
    (∀ size acts s i n sender msg now, System.initial.run size acts = some s →
      s.node i = some n → ⟨sender, i, msg⟩ ∈ s.sent →
      ∀ text, n.handle now sender msg ≠ .error (.assertion text)) := by
  refine ⟨fun size s s' i n m h hi hj hn hm hterm => leader_log_grows h hi hj hn hm hterm,
    fun size s s' i n h hi => ?_, fun size acts s i n sender msg now h hi hsent text herr => ?_⟩
  · exact ⟨committed_kept_in_storage h hi, fun m hj => committed_kept_in_log h hi hj⟩
  · obtain ⟨a, hsim, _, _⟩ := run_simulates (.initial size) h
    exact handle_sent_unasserted hsim hi hsent _ herr text rfl

namespace System

/-- Node 1 wins term 2 with the vote of node 2, without the proposal that node 0 has accepted. -/
def rivalry : List Action :=
  [.call 1 (.tick 3) .returns,
    .call 2 (.handle 3 1 (.requestVote 2 1 1)) .returns,
    .call 1 (.handle 3 2 (.voteResponse 2 true)) .returns]

/-- The no-op of term 2 takes the place of the proposal. -/
def overruling : Action := .call 0 (.handle 4 1 (.appendEntries 2 1 1 [⟨2, []⟩] 0)) .returns

def rivalled : System := (reigned.run 3 rivalry).get (by decide +kernel)

/-- The first leader, which has not heard of term 2. -/
def unaware : Node Disk := (rivalled.node 0).get (by decide +kernel)

def overruled : System := (reigned.run 3 (rivalry ++ [overruling])).get (by decide +kernel)

def loser : Node Disk := (overruled.node 0).get (by decide +kernel)

end System

/-- The first leader's log grows; when the second leader replaces its proposal, the no-op that it
has committed stays, and the message that does so reaches it while it still leads. -/
theorem leader_append_only_committed_kept_overruled :
    System.newLeader.log <+: System.firstLeader.log ∧
      System.firstLeader.log = [⟨1, []⟩, ⟨1, [7]⟩] ∧ System.loser.log = [⟨1, []⟩, ⟨2, []⟩] ∧
      System.firstLeader.commitIndex = 1 ∧
      System.loser.log.take System.firstLeader.commitIndex =
        System.firstLeader.log.take System.firstLeader.commitIndex ∧
      System.unaware.role = .leader ∧
      System.unaware.handle 4 1 (.appendEntries 2 1 1 [⟨2, []⟩] 0) ≠
        .error (.assertion "election safety") := by
  have hrivalled : System.initial.run 3 (System.opening ++ System.reigning ++ System.rivalry) =
      some System.rivalled :=
    Run.exec_append_eq_some.mpr ⟨_, System.run_reigned, (Option.some_get _).symm⟩
  have hoverruled : System.Moments 3 System.reigned System.overruled :=
    ⟨System.opening ++ System.reigning, System.rivalry ++ [System.overruling], System.run_reigned,
      (Option.some_get _).symm⟩
  have hgrows := leader_append_only_committed_kept.1 3 _ _ 0 _ _ System.moments_opened_reigned
    System.node_newLeader System.node_firstLeader (by decide +kernel) (by decide +kernel)
    (by decide +kernel)
  have hkept := ((leader_append_only_committed_kept.2.1 3 _ _ 0 _ hoverruled
    System.node_firstLeader).2 System.loser (Option.some_get _).symm).2.1
  have hasserts := leader_append_only_committed_kept.2.2 3 _ System.rivalled 0 System.unaware 1
    (.appendEntries 2 1 1 [⟨2, []⟩] 0) 4 hrivalled (Option.some_get _).symm (by decide +kernel)
    "election safety"
  exact ⟨hgrows, by decide +kernel, by decide +kernel, by decide +kernel, hkept, by decide +kernel,
    hasserts⟩

end Landsraad
