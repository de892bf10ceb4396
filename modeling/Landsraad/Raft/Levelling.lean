import Landsraad.Raft.Convergence

/-!
# A second heartbeat

Once every live log is the leader's and all of it is committed, the next heartbeat carries no
entry. It only tells the peers how far the leader has committed, and each answers once.
-/

namespace Landsraad

open ReplicatedLog Checked

section

variable {size T M L i j now k : Nat} {s s' : System} {n n' l l' : Node Disk}
  {x x' : Exchange} {out : List Outgoing} {log : List Entry}

/-- A heartbeat to a peer that holds the whole log, all of it committed, or the answer to one. -/
def Notice (T L : Nat) (log : List Entry) (e : Envelope) : Prop :=
  (e.sender = L ∧ e.recipient ≠ L ∧ ∃ t, TermAt log log.length t ∧
    e.message = .appendEntries T log.length t [] log.length) ∨
  (e.recipient = L ∧ e.message = .appendResponse T true log.length)

theorem le_commitIndex_committing {m : Node Disk} {k : Nat} :
    k ≤ (m.committing k k).commitIndex := by
  unfold Node.committing
  split
  · exact (min_self k).ge
  · next hge => exact Nat.le_of_not_lt hge

/-- A peer accepts the heartbeat, keeps its log and commits all of it. -/
theorem follower_levels {t : Nat} (hle : n.term ≤ T) (hj : j ≠ n.cfg.id)
    (hlt : j < n.cfg.clusterSize) (hlog : n.log = log) (ht : TermAt log log.length t)
    (h : n.handle now j (.appendEntries T log.length t [] log.length) = .ok (n', out)) :
    n'.log = log ∧ log.length ≤ n'.commitIndex ∧
      out = [⟨j, .appendResponse T true log.length⟩] := by
  rcases Node.handle_receives h with ⟨hignored, _⟩ | ⟨_, _, f, hr, hflog, _, hterm, _⟩
  · omega
  have hfT : f.term = T := hterm.trans (max_eq_right hle)
  rw [hlog] at hflog
  rcases Node.onAppendEntries_ok hr with ⟨hlow, _⟩ | ⟨_, _, deadline, rng, hcase⟩
  · omega
  rcases hcase with ⟨hno, _⟩ | ⟨_, _, m, hm, rfl, rfl⟩
  · refine absurd ⟨?_, ?_⟩ hno
    · show log.length ≤ f.log.length
      rw [hflog]
    · show TermAt f.log log.length t
      rw [hflog]
      exact ht
  · -- there is no entry to merge
    cases hm
    refine ⟨?_, le_commitIndex_committing, ?_⟩
    · rw [Node.committing_log]
      exact hflog
    · rw [← hfT]
      rfl

/-- The answer tells the leader nothing new. -/
theorem leader_levelled (hrole : l.role = .leader) (hterm : l.term = T) (hlog : l.log = log)
    (h : l.handle now j (.appendResponse T true log.length) = .ok (l', out)) :
    l'.role = .leader ∧ l'.term = T ∧ l'.log = log ∧ l.commitIndex ≤ l'.commitIndex ∧
      out = [] := by
  rcases Node.handle_receives h with ⟨_, rfl, rfl⟩ | ⟨_, _, f, hr, _, _, _, hf⟩
  · exact ⟨hrole, hterm, hlog, le_rfl, rfl⟩
  have hfl : f = l := by
    rcases hf with rfl | ⟨hlt, _⟩
    · rfl
    · exact absurd hlt (by rw [hterm]; exact lt_irrefl T)
  subst hfl
  rcases Node.onAppendResponse_ok hr with ⟨_, rfl, rfl⟩ | ⟨_, _, known, _, hcase⟩
  · exact ⟨hrole, hterm, hlog, le_rfl, rfl⟩
  rcases hcase with ⟨_, hcommit, hout⟩ | ⟨hno, _⟩
  · have hlast : f.lastIndex = log.length := congrArg List.length hlog
    obtain ⟨c, rfl, hc⟩ := Node.advanceCommit_ok hcommit
    refine ⟨hrole, hterm, hlog, hc.le, ?_⟩
    rcases hout with ⟨_, rfl⟩ | ⟨hmore, _⟩
    · rfl
    · rw [hlast, min_self] at hmore
      exact absurd (le_max_right known log.length) (Nat.not_le.mpr hmore)
  · cases hno

/-! ## The deliveries -/

/-- Every live log is the leader's, all of which it has committed, and each live node has
committed all of it too or has a heartbeat on its way. Nothing else is in flight. -/
structure Levelling (T L : Nat) (log : List Entry) (x : Exchange) (l : Node Disk) : Prop where
  node : x.system.node L = some l
  role : l.role = .leader
  term : l.term = T
  logs : ∀ p n, x.system.node p = some n → n.log = log
  flight : ∀ e ∈ x.inFlight, ∀ n, x.system.node e.recipient = some n → Notice T L log e
  level : ∀ p n, x.system.node p = some n →
    log.length ≤ n.commitIndex ∨ (p ≠ L ∧ ∃ e ∈ x.inFlight, e.recipient = p)

/-- A heartbeat is answered, so that it counts twice. -/
def toll (L : Nat) (flight : List Envelope) : Nat :=
  (flight.map fun e => if e.recipient = L then 1 else 2).sum

@[simp] theorem toll_nil : toll L [] = 0 := rfl

theorem toll_append (flight flight' : List Envelope) :
    toll L (flight ++ flight') = toll L flight + toll L flight' := by
  simp [toll]

theorem toll_cons (e : Envelope) (flight : List Envelope) :
    toll L (e :: flight) = (if e.recipient = L then 1 else 2) + toll L flight := by
  simp [toll]

namespace Levelling

variable {e : Envelope} {before after : List Envelope} {d : List (Nat × Entry)}

theorem lose (h : Levelling T L log ⟨s, before ++ e :: after⟩ l)
    (hdown : s.node e.recipient = none) : Levelling T L log ⟨s, before ++ after⟩ l := by
  refine ⟨h.node, h.role, h.term, h.logs, fun e' he' => h.flight e' (mem_of_mem_kept he'),
    fun p n hn => (h.level p n hn).imp id ?_⟩
  rintro ⟨hp, e', he', hto⟩
  rcases mem_of_mem_removed he' with rfl | he'
  · have hnone := hdown
    rw [hto, hn] at hnone
    cases hnone
  · exact ⟨hp, e', he', hto⟩

theorem lead (h : Levelling T L log ⟨s, before ++ e :: after⟩ l) (hrecipient : e.recipient = L)
    (hh : l.handle now e.sender e.message = .ok (l', out))
    (hslots : s'.slots = Function.update s.slots L (.up l' d))
    (hsent : s'.sent = s.sent ++ out.map fun o => ⟨L, o.recipient, o.message⟩) :
    Levelling T L log ⟨s', before ++ after ++ s'.sent.drop s.sent.length⟩ l' ∧ out = [] := by
  have hnotice : Notice T L log e := h.flight e (by simp) l (by rw [hrecipient]; exact h.node)
  have hmsg : e.message = .appendResponse T true log.length := by
    rcases hnotice with ⟨_, hne, _⟩ | ⟨_, hmsg⟩
    · exact absurd hrecipient hne
    · exact hmsg
  rw [hmsg] at hh
  obtain ⟨hrole, hterm, hlog, hcommit, rfl⟩ :=
    leader_levelled h.role h.term (h.logs L l h.node) hh
  have hnode : ∀ p m, s'.node p = some m → p ≠ L → s.node p = some m := by
    intro p m hm hp
    rw [System.node_update_of_ne hslots hp] at hm
    exact hm
  have hflight : before ++ after ++ s'.sent.drop s.sent.length = before ++ after := by
    rw [drop_sent hsent]
    exact List.append_nil _
  have hL := System.node_update_self hslots
  rw [hflight]
  refine ⟨⟨hL, hrole, hterm, fun p m hm => ?_, fun e' he' m hm => ?_, fun p m hm => ?_⟩, rfl⟩
  · by_cases hp : p = L
    · subst hp
      obtain rfl : l' = m := Option.some.inj (hL.symm.trans hm)
      exact hlog
    · exact h.logs p m (hnode p m hm hp)
  · obtain ⟨m', hm'⟩ := live_before h.node hslots hm
    exact h.flight e' (mem_of_mem_kept he') m' hm'
  · by_cases hp : p = L
    · subst hp
      obtain rfl : l' = m := Option.some.inj (hL.symm.trans hm)
      rcases h.level p l h.node with hle | ⟨hne, _⟩
      · exact .inl (hle.trans hcommit)
      · exact absurd rfl hne
    · rcases h.level p m (hnode p m hm hp) with hle | ⟨_, e', he', hto⟩
      · exact .inl hle
      · rcases mem_of_mem_removed he' with rfl | he'
        · exact absurd (hto.symm.trans hrecipient) hp
        · exact .inr ⟨hp, e', he', hto⟩

theorem follow (h : Levelling T L log ⟨s, before ++ e :: after⟩ l) (hcalm : Calm size T M s)
    (hrecipient : e.recipient ≠ L) (hn : s.node e.recipient = some n)
    (hh : n.handle now e.sender e.message = .ok (n', out))
    (hslots : s'.slots = Function.update s.slots e.recipient (.up n' d))
    (hsent : s'.sent = s.sent ++ out.map fun o => ⟨e.recipient, o.recipient, o.message⟩) :
    Levelling T L log ⟨s', before ++ after ++ s'.sent.drop s.sent.length⟩ l ∧
      out = [⟨L, .appendResponse T true log.length⟩] := by
  obtain ⟨a, acts, hsim, _⟩ := hcalm.facts
  obtain ⟨hsender, t, ht, hmsg⟩ : e.sender = L ∧ ∃ t, TermAt log log.length t ∧
      e.message = .appendEntries T log.length t [] log.length := by
    rcases h.flight e (by simp) n hn with ⟨hsender, _, hmsg⟩ | ⟨hto, _⟩
    · exact ⟨hsender, hmsg⟩
    · exact absurd hto hrecipient
  have hnode := hsim.node hn
  have hid : L ≠ n.cfg.id := by
    rw [hnode.id]
    exact Ne.symm hrecipient
  have hlt : L < n.cfg.clusterSize := by
    rw [hnode.clusterSize]
    exact (hsim.node h.node).lt_size
  rw [hmsg, hsender] at hh
  obtain ⟨hlog, hcommit, rfl⟩ := follower_levels (hcalm.term_le e.recipient n hn) hid hlt
    (h.logs _ n hn) ht hh
  have hself := System.node_update_self hslots
  have hnodes : ∀ p m, s'.node p = some m → p ≠ e.recipient → s.node p = some m := by
    intro p m hm hp
    rw [System.node_update_of_ne hslots hp] at hm
    exact hm
  refine ⟨⟨?_, h.role, h.term, fun p m hm => ?_, fun e' he' m hm => ?_, fun p m hm => ?_⟩, rfl⟩
  · rw [System.node_update_of_ne hslots (Ne.symm hrecipient)]
    exact h.node
  · by_cases hp : p = e.recipient
    · subst hp
      obtain rfl : n' = m := Option.some.inj (hself.symm.trans hm)
      exact hlog
    · exact h.logs p m (hnodes p m hm hp)
  · rcases List.mem_append.mp he' with hold | hnew
    · obtain ⟨m', hm'⟩ := live_before hn hslots hm
      exact h.flight e' (mem_of_mem_kept hold) m' hm'
    · rw [drop_sent hsent] at hnew
      obtain rfl := List.mem_singleton.mp hnew
      exact .inr ⟨rfl, rfl⟩
  · by_cases hp : p = e.recipient
    · subst hp
      obtain rfl : n' = m := Option.some.inj (hself.symm.trans hm)
      exact .inl hcommit
    · rcases h.level p m (hnodes p m hm hp) with hle | ⟨hpL, e', he', hto⟩
      · exact .inl hle
      · rcases mem_of_mem_removed he' with rfl | he'
        · exact absurd hto.symm hp
        · exact .inr ⟨hpL, e', List.mem_append_left _ he', hto⟩

theorem deliver (h : Levelling T L log x l) (hu : Underway size T M x)
    (hd : Delivers size x x') :
    ∃ l', Levelling T L log x' l' ∧ toll L x'.inFlight < toll L x.inFlight := by
  cases hd with
  | lost s e before after hdown =>
    refine ⟨l, h.lose hdown, ?_⟩
    simp only [toll_append, toll_cons]
    split <;> omega
  | handled s s' e before after now hstep =>
    obtain ⟨n, d, n', out, hslot, hin, hh, hslots, hsent⟩ := perform_handle_ok hstep
    have hn : s.node e.recipient = some n := System.node_eq_some.mpr ⟨d, hslot⟩
    by_cases hrecipient : e.recipient = L
    · rw [hrecipient] at hn hslots hsent
      obtain rfl : n = l := Option.some.inj (hn.symm.trans h.node)
      obtain ⟨hlevel, rfl⟩ := h.lead hrecipient hh hslots hsent
      refine ⟨n', hlevel, ?_⟩
      rw [drop_sent hsent]
      simp only [toll_append, toll_cons, if_pos hrecipient, List.map_nil, toll_nil]
      omega
    · obtain ⟨hlevel, rfl⟩ := h.follow hu.calm hrecipient hn hh hslots hsent
      refine ⟨l, hlevel, ?_⟩
      rw [drop_sent hsent]
      simp only [toll_append, toll_cons, if_neg hrecipient, List.map_cons, List.map_nil, toll_nil,
        if_true]
      omega

end Levelling

/-! ## From the heartbeat on -/

theorem length_peers (h : n.cfg.id < n.cfg.clusterSize) :
    n.peers.length = n.cfg.clusterSize - 1 := by
  have hperm : (List.range n.cfg.clusterSize).erase n.cfg.id = n.peers := by
    rw [List.nodup_range.erase_eq_filter, Node.peers]
    exact List.filter_congr fun p _ => by by_cases hp : p = n.cfg.id <;> simp [hp]
  rw [← hperm, List.length_erase_of_mem (List.mem_range.mpr h), List.length_range]

theorem appendFor_notice {p : Nat} {o : Outgoing} (hranged : l.Ranged) (hrole : l.role = .leader)
    (hterm : l.term = T) (hlog : l.log = log) (hcommit : l.commitIndex = log.length) (hp : p ≠ L)
    (hmatch : l.matchIndex[p]? = some log.length) (h : l.appendFor p = .ok o) :
    o.recipient = p ∧ Notice T L log ⟨L, o.recipient, o.message⟩ := by
  obtain ⟨prevIndex, prevTerm, entries, ⟨_, ht, _⟩, rfl, ⟨next, hnext, _, hprev⟩, hlen⟩ :=
    Node.appendFor_ok h
  obtain ⟨hlow, hhigh⟩ := hranged.leader hrole p log.length next hmatch hnext
  have hlast : l.lastIndex = log.length := congrArg List.length hlog
  obtain rfl : prevIndex = log.length := by omega
  rw [hlog] at ht hlen
  obtain rfl : entries = [] := List.eq_nil_of_length_eq_zero (by omega)
  refine ⟨rfl, .inl ⟨rfl, hp, prevTerm, ht, ?_⟩⟩
  rw [← hterm, hcommit]

theorem heartbeat_levels {acts : List Action} (hrun : System.initial.run size acts = some s)
    (hlead : s.Leads L l T) (hlogs : ∀ p n, s.node p = some n → n.log = l.log)
    (hmatch : ∀ p n, s.node p = some n → p ≠ L → l.matchIndex[p]? = some l.lastIndex)
    (hcommit : l.commitIndex = l.lastIndex) (hdue : l.heartbeatDeadline ≤ now)
    (hbeat : s.perform size (.call L (.tick now) .returns) = some s') :
    ∃ l', Levelling T L l.log ⟨s', s'.sent.drop s.sent.length⟩ l' ∧
      toll L (s'.sent.drop s.sent.length) ≤ 2 * (size - 1) := by
  obtain ⟨hl, hrole, hterm⟩ := hlead
  obtain ⟨a, hsim, _⟩ := run_simulates (.initial size) hrun
  have hnode := hsim.node hl
  have hranged := run_ranged hrun L l hl
  obtain ⟨n₁, d, l', out, answer, hslot, _, hcall, hslots, hsent⟩ := perform_returns_ok hbeat
  obtain rfl : n₁ = l :=
    Option.some.inj ((System.node_eq_some.mpr ⟨d, hslot⟩).symm.trans hl)
  obtain ⟨⟨n₂, out₂⟩, ht, hcall⟩ := bind_eq_ok.mp hcall
  cases hcall
  obtain ⟨deadline, rfl, hout⟩ := Node.tick_due hrole hdue ht
  have hself := System.node_update_self hslots
  have hnodes := fun p m (hm : s'.node p = some m) => live_before hl hslots hm
  rw [drop_sent hsent]
  refine ⟨_, ⟨hself, hrole, hterm, fun p m hm => ?_, fun e he m hm => ?_, fun p m hm => ?_⟩, ?_⟩
  · by_cases hp : p = L
    · subst hp
      obtain rfl := Option.some.inj (hself.symm.trans hm)
      rfl
    · rw [System.node_update_of_ne hslots hp] at hm
      exact hlogs p m hm
  · obtain ⟨o, ho, rfl⟩ := List.mem_map.mp he
    obtain ⟨hpeer, hfor⟩ := Node.broadcastAppend_sends hout ho
    have hp : o.recipient ≠ L := by
      rw [← hnode.id]
      exact (Node.mem_peers.mp hpeer).2
    obtain ⟨m', hm'⟩ := hnodes _ m hm
    exact (appendFor_notice (hranged.of_isPrefix rfl rfl rfl rfl List.prefix_rfl) hrole hterm rfl
      hcommit hp (hmatch _ m' hm' hp) hfor).2
  · by_cases hp : p = L
    · subst hp
      obtain rfl := Option.some.inj (hself.symm.trans hm)
      exact .inl hcommit.ge
    · obtain ⟨m', hm'⟩ := hnodes p m hm
      have hpeer : p ∈ n₁.peers := Node.mem_peers.mpr
        ⟨by rw [hnode.clusterSize]; exact (hsim.node hm').lt_size, by rw [hnode.id]; exact hp⟩
      obtain ⟨o, ho, hfor⟩ := Node.broadcastAppend_reaches hout hpeer
      obtain ⟨prevIndex, prevTerm, entries, _, rfl, _⟩ := Node.appendFor_ok hfor
      exact .inr ⟨hp, _, List.mem_map.mpr ⟨_, ho, rfl⟩, rfl⟩
  · have hcount : out.length = size - 1 := by
      have hid : n₁.cfg.id < n₁.cfg.clusterSize := by
        rw [hnode.id, hnode.clusterSize]
        exact hnode.lt_size
      have hpeers := length_peers (n := { n₁ with heartbeatDeadline := deadline }) hid
      exact (mapM_eq_ok hout).length_eq.symm.trans (hpeers.trans (by rw [hnode.clusterSize]))
    have hsum := List.sum_le_card_nsmul
      ((out.map fun o => (⟨L, o.recipient, o.message⟩ : Envelope)).map fun e =>
        if e.recipient = L then 1 else 2) 2 (by
          intro x hx
          obtain ⟨e, _, rfl⟩ := List.mem_map.mp hx
          split <;> omega)
    rw [List.length_map, List.length_map, hcount, smul_eq_mul] at hsum
    unfold toll
    omega

/-- Once the replication has come to its end, the next heartbeat is sent and takes no more than an
answer from each peer, and then every live node has committed the whole log. -/
theorem Replicating.levels {K now' : Nat} (h : Replicating size T M K L log x)
    (hspare : x.system.Spare K) (hempty : x.inFlight = [])
    (hmajority : size / 2 + 1 ≤ (x.system.liveNodes size).length)
    (hnode : x.system.node L = some l) (hdue : l.heartbeatDeadline ≤ now')
    (hnow : l.ClockFits now') :
    ∃ s₁, x.system.perform size (.call L (.tick now') .returns) = some s₁ ∧
      ∀ k y, Descent.Chain (Delivers size) k ⟨s₁, s₁.sent.drop x.system.sent.length⟩ y →
        k ≤ 2 * (size - 1) ∧ y.Flows size ∧ (∃ acts, System.initial.run size acts = some y.system) ∧
          (y.inFlight = [] → ∀ p n, y.system.node p = some n →
            n.log = log ∧ n.commitIndex = n.log.length ∧ n.log.length + 1 < wordSize) := by
  obtain ⟨l', hlead, hholds, hlogs, hmatch, hcommit⟩ := h.settled hempty
  obtain rfl : l' = l := Option.some.inj (hlead.1.symm.trans hnode)
  obtain ⟨acts, hrun⟩ := h.underway.calm.reachable
  have hlive : ∀ i n, x.system.node i = some n → n.term ≤ T ∧ 1 ≤ n.cfg.maxBatch :=
    fun i n hn => ⟨h.underway.calm.term_le i n hn, h.underway.calm.batch i n hn⟩
  have hshort : Exchange.Short K ⟨x.system, []⟩ := ⟨h.short.nodes, by simp⟩
  have hfit : l'.BatchesFit (.tick now') :=
    batches_fit hrun hnode ⟨h.short.nodes L l' hnode, hspare L l' hnode⟩ (.tick now')
  obtain ⟨s₁, hbeat⟩ := (heartbeat_returns hrun hlead hnow).mpr hfit
  obtain ⟨M', hstart⟩ :=
    heartbeat_replicates hrun hlead hlive (by simp) hshort h.word hdue hbeat
  rw [List.nil_append] at hstart
  obtain ⟨l₁, hlevel, htoll⟩ :=
    heartbeat_levels hrun hlead hlogs hmatch (hcommit hmajority) hdue hbeat
  rw [hholds] at hstart hlevel
  have hstep : ∀ y y' : Exchange,
      (Replicating size T M' K L log y ∧ ∃ l', Levelling T L log y l') → Delivers size y y' →
        (Replicating size T M' K L log y' ∧ ∃ l', Levelling T L log y' l') ∧
          toll L y'.inFlight < toll L y.inFlight := by
    rintro y y' ⟨hr, l', hl'⟩ hd
    obtain ⟨l'', hl'', hlower⟩ := hl'.deliver hr.underway hd
    exact ⟨⟨hr.deliver hd, l'', hl''⟩, hlower⟩
  refine ⟨s₁, hbeat, fun k y hchain => ?_⟩
  have hpaid := hchain.length_le (μ := fun y => toll L y.inFlight)
    (fun y y' hy hd => (hstep y y' hy hd).1) (fun y y' hy hd => (hstep y y' hy hd).2)
    ⟨hstart, l₁, hlevel⟩
  obtain ⟨hr, l₂, hl₂⟩ :=
    hchain.invariant (fun y y' hy hd => (hstep y y' hy hd).1) ⟨hstart, l₁, hlevel⟩
  have hroom : y.system.Spare K := System.Spare.chain (heartbeat_spare hspare hbeat) hchain
  refine ⟨(Nat.le_add_right _ _).trans (hpaid.trans htoll), hr.flows hroom,
    hr.underway.calm.reachable, fun hnone p n hn => ?_⟩
  have hlog : n.log = log := hl₂.logs p n hn
  obtain ⟨a, acts, hsim, _⟩ := hr.underway.calm.facts
  refine ⟨hlog, le_antisymm (hsim.node hn).commit.le_length ?_, ?_⟩
  · rcases hl₂.level p n hn with hle | ⟨_, e, he, _⟩
    · rw [hlog]
      exact hle
    · rw [hnone] at he
      cases he
  · exact (Nat.succ_le_succ (hr.short.nodes p n hn).log).trans_lt hr.word

end

end Landsraad
