import Mathlib.Algebra.Order.BigOperators.Group.Finset
import Landsraad.Raft.Room

/-!
# Replication converges

After one heartbeat of the leader of the highest term, the messages in flight and their answers
can only be delivered finitely often, in whatever order. While a peer lags behind, a message
between it and the leader is in flight, so that when none is left every live log is the
leader's.
-/

namespace Landsraad

open ReplicatedLog ReplicatedLog.Ledger Checked

section

variable {size T M L i j now : Nat} {s s' : System} {n n' : Node Disk} {msg : Message}
  {x x' : Exchange} {out : List Outgoing}

theorem perform_returns_ok {c : Call} (h : s.perform size (.call i c .returns) = some s') :
    ∃ n d n' out answer, s.slots i = .up n d ∧ s.Deliverable i c ∧
      n.call c = .ok (n', out, answer) ∧ s'.slots = Function.update s.slots i (.up n' d) ∧
      s'.sent = s.sent ++ out.map fun o => ⟨i, o.recipient, o.message⟩ := by
  have hperf : s.performCall i c .returns = some s' := h
  obtain ⟨n, d, m, n', out, answer, hslot, hdeliv, _, hcall, hfate⟩ := System.performCall_ok hperf
  rcases hfate with ⟨_, rfl, rfl⟩ | ⟨hf, _⟩ | ⟨_, hf, _⟩
  · exact ⟨m, d, n', out, answer, hslot, hdeliv, hcall, rfl, rfl⟩
  · cases hf
  · cases hf

theorem perform_handle_ok
    (h : s.perform size (.call i (.handle now j msg) .returns) = some s') :
    ∃ n d n' out, s.slots i = .up n d ∧ ⟨j, i, msg⟩ ∈ s.sent ∧
      n.handle now j msg = .ok (n', out) ∧ s'.slots = Function.update s.slots i (.up n' d) ∧
      s'.sent = s.sent ++ out.map fun o => ⟨i, o.recipient, o.message⟩ := by
  obtain ⟨n, d, n', out, answer, hslot, hdeliv, hcall, hslots, hsent⟩ := perform_returns_ok h
  obtain ⟨hh, rfl⟩ := Node.call_handle_ok hcall
  exact ⟨n, d, n', out, hslot, hdeliv, hh, hslots, hsent⟩

theorem perform_call_returns {n : Node Disk} {c : Call} (hn : s.node i = some n)
    (hdeliv : s.Deliverable i c) (h : (n.call c).Returns) :
    ∃ s', s.perform size (.call i c .returns) = some s' := by
  obtain ⟨d, hslot⟩ := System.node_eq_some.mp hn
  obtain ⟨answer, hcall⟩ := h
  simp only [System.perform, System.performCall, hslot, hcall, if_pos hdeliv]
  exact ⟨_, rfl⟩

theorem System.node_update_self {d : List (Nat × Entry)}
    (h : s'.slots = Function.update s.slots i (.up n d)) : s'.node i = some n :=
  System.node_eq_some.mpr ⟨d, by rw [h, Function.update_self]⟩

theorem System.node_update_of_ne {slot : Slot} (h : s'.slots = Function.update s.slots i slot)
    (hj : j ≠ i) : s'.node j = s.node j := by
  unfold System.node
  rw [h, Function.update_of_ne hj]

theorem Calm.handled (h : Calm size T M s) (hT : msg.term ≤ T)
    (hp : s.perform size (.call i (.handle now j msg) .returns) = some s') :
    Calm size T M s' := by
  obtain ⟨n, d, n', out, hslot, _, hh, hslots, _⟩ := perform_handle_ok hp
  obtain ⟨hterm, hans⟩ := Node.handle_answered hh
  have hn : s.node i = some n := System.node_eq_some.mpr ⟨d, hslot⟩
  obtain ⟨acts, hrun⟩ := h.reachable
  refine ⟨⟨_, run_concat hrun hp⟩, ?_, ?_, ?_, ?_⟩
  · intro k m hm
    rcases System.node_of_update hslots hm with ⟨rfl, _, hup⟩ | ⟨_, hold⟩
    · cases hup
      exact hterm.trans (max_le (h.term_le k n hn) hT)
    · exact h.term_le k m hold
  · intro k m hm
    rcases System.node_of_update hslots hm with ⟨rfl, _, hup⟩ | ⟨_, hold⟩
    · cases hup
      rw [hans.cfg]
      exact h.batch k n hn
    · exact h.batch k m hold
  · intro k m hm hrole
    rcases System.node_of_update hslots hm with ⟨rfl, _, hup⟩ | ⟨_, hold⟩
    · cases hup
      rcases (hans.leader hrole).2 with ⟨hlead, hlog⟩ | ⟨hcand, hlen⟩
      · rw [hlog]
        exact h.leader_le k n hn hlead
      · rw [hlen]
        exact h.candidate_lt k n hn hcand
    · exact h.leader_le k m hold hrole
  · intro k m hm hrole
    rcases System.node_of_update hslots hm with ⟨rfl, _, hup⟩ | ⟨_, hold⟩
    · cases hup
      obtain ⟨hcand, _, hlog⟩ := hans.candidate hrole
      rw [hlog]
      exact h.candidate_lt k n hn hcand
    · exact h.candidate_lt k m hold hrole

/-! ## Every sequence of deliveries is finite -/

/-- The cluster is calm, and everything in flight was sent and is of a term up to `T`. -/
structure Underway (size T M : Nat) (x : Exchange) : Prop where
  calm : Calm size T M x.system
  sent : ∀ e ∈ x.inFlight, e ∈ x.system.sent ∧ e.message.term ≤ T

/-- What is in flight weighs, and what candidates may yet send. -/
noncomputable def load (size T M : Nat) (x : Exchange) : Nat :=
  (x.inFlight.map (weight T M x.system)).sum +
    ∑ i ∈ Finset.range size, (x.system.node i).elim 0 (potential size T M)

theorem drop_sent {new : List Envelope} (h : s'.sent = s.sent ++ new) :
    s'.sent.drop s.sent.length = new := by
  rw [h, List.drop_left]

theorem mem_of_mem_removed {e e' : Envelope} {before after : List Envelope}
    (h : e' ∈ before ++ e :: after) : e' = e ∨ e' ∈ before ++ after := by
  rcases List.mem_append.mp h with hb | ha
  · exact .inr (List.mem_append_left _ hb)
  · rcases List.mem_cons.mp ha with rfl | ha
    · exact .inl rfl
    · exact .inr (List.mem_append_right _ ha)

theorem mem_of_mem_kept {e e' : Envelope} {before after : List Envelope}
    (h : e' ∈ before ++ after) : e' ∈ before ++ e :: after := by
  rcases List.mem_append.mp h with hb | ha
  · exact List.mem_append_left _ hb
  · exact List.mem_append_right _ (List.mem_cons_of_mem _ ha)

theorem Underway.deliver (h : Underway size T M x) (hd : Delivers size x x') :
    Underway size T M x' := by
  cases hd with
  | lost s e before after hdown =>
    exact ⟨h.calm, fun e' he' => h.sent e' (mem_of_mem_kept he')⟩
  | handled s s' e before after now hstep =>
    obtain ⟨_, hT⟩ := h.sent e (by simp)
    have hcalm := h.calm.handled hT hstep
    refine ⟨hcalm, fun e' he' => ?_⟩
    obtain ⟨n, d, n', out, hslot, _, hh, hslots, hsent⟩ := perform_handle_ok hstep
    rw [drop_sent hsent] at he'
    show e' ∈ s'.sent ∧ e'.message.term ≤ T
    rcases List.mem_append.mp he' with hold | hnew
    · obtain ⟨hin, hle⟩ := h.sent e' (mem_of_mem_kept hold)
      rw [hsent]
      exact ⟨List.mem_append_left _ hin, hle⟩
    · refine ⟨by rw [hsent]; exact List.mem_append_right _ hnew, ?_⟩
      obtain ⟨o, ho, rfl⟩ := List.mem_map.mp hnew
      obtain ⟨a, acts, hsim, _⟩ := h.calm.facts
      have hpersisted := (hsim.node (System.node_eq_some.mpr ⟨d, hslot⟩)).persisted
      have hacc := Node.handle_accounted hpersisted hh
      rw [(hacc.justified o ho).1, hacc.persisted]
      exact hcalm.term_le e.recipient n' (System.node_update_self hslots)

theorem potentials_swap {d : List (Nat × Entry)} (hlt : i < size) (hn : s.node i = some n)
    (hslots : s'.slots = Function.update s.slots i (.up n' d)) :
    (∑ p ∈ Finset.range size, (s'.node p).elim 0 (potential size T M)) + potential size T M n =
      (∑ p ∈ Finset.range size, (s.node p).elim 0 (potential size T M)) +
        potential size T M n' := by
  have hmem : i ∈ Finset.range size := Finset.mem_range.mpr hlt
  have hn' := System.node_update_self hslots
  have hrest : ∑ p ∈ (Finset.range size).erase i, (s'.node p).elim 0 (potential size T M) =
      ∑ p ∈ (Finset.range size).erase i, (s.node p).elim 0 (potential size T M) := by
    apply Finset.sum_congr rfl
    intro p hp
    rw [System.node_update_of_ne hslots (Finset.ne_of_mem_erase hp)]
  rw [← Finset.add_sum_erase _ _ hmem, ← Finset.add_sum_erase _ _ hmem, hrest, hn, hn',
    Option.elim_some, Option.elim_some]
  omega

/-- A delivery replaces a message by answers that are lighter altogether. -/
theorem Underway.load_lt (h : Underway size T M x) (hd : Delivers size x x') :
    load size T M x' < load size T M x := by
  cases hd with
  | lost s e before after hdown =>
    have hpos : 0 < weight T M s e := weight_pos e
    simp only [load, List.map_append, List.map_cons, List.sum_append, List.sum_cons]
    omega
  | handled s s' e before after now hstep =>
    obtain ⟨_, hT⟩ := h.sent e (by simp)
    obtain ⟨n, d, n', out, hslot, hin, hh, hslots, hsent⟩ := perform_handle_ok hstep
    have hn : s.node e.recipient = some n := System.node_eq_some.mpr ⟨d, hslot⟩
    have hsub : s.sent ⊆ s'.sent := by
      rw [hsent]
      exact List.subset_append_left _ _
    have hlighter : Lighter size T M s s' e n n' out :=
      handle_lighter h.calm hin hsub hT hn hh
    have hold : ∀ l : List Envelope,
        (l.map (weight T M s')).sum ≤ (l.map (weight T M s)).sum := by
      intro l
      exact List.sum_le_sum fun e' _ => weight_mono hsub e'
    have hb := hold before
    have ha := hold after
    obtain ⟨a, acts, hsim, _⟩ := h.calm.facts
    have hswap := potentials_swap (T := T) (M := M) (hsim.node hn).lt_size hn hslots
    simp only [Lighter] at hlighter
    simp only [load, drop_sent hsent, List.map_append, List.map_cons, List.sum_append,
      List.sum_cons, List.map_map, Function.comp_def]
    omega

/-! ## While a peer lags, a message is on its way -/

/-- An AppendEntries of term `T` from `L` to `p`, or the answer to one. -/
def Between (L p T : Nat) (e : Envelope) : Prop :=
  (e.sender = L ∧ e.recipient = p ∧ ∃ prevIndex prevTerm entries leaderCommit,
    e.message = .appendEntries T prevIndex prevTerm entries leaderCommit) ∨
  (e.sender = p ∧ e.recipient = L ∧ ∃ success m, e.message = .appendResponse T success m)

/-- What the leader of term `T` does with any message of a term up to its own. -/
structure Kept (T : Nat) (l l' : Node Disk) : Prop where
  role : l'.role = .leader
  term : l'.term = T
  log : l'.log = l.log
  full : ∀ p : Nat, l.matchIndex[p]? = some l.log.length → l'.matchIndex[p]? = some l.log.length

variable {l l' : Node Disk} {log : List Entry}

theorem Kept.of_eq (hrole : l.role = .leader) (hterm : l.term = T) (hrole' : l'.role = l.role)
    (hterm' : l'.term = l.term) (hlog : l'.log = l.log) (hmatch : l'.matchIndex = l.matchIndex) :
    Kept T l l' :=
  ⟨hrole'.trans hrole, hterm'.trans hterm, hlog, fun p hp => by rw [hmatch]; exact hp⟩

theorem appendFor_between {o : Outgoing} (hterm : l.term = T) (h : l.appendFor j = .ok o) :
    Between L j T ⟨L, o.recipient, o.message⟩ := by
  obtain ⟨prevIndex, prevTerm, entries, _, rfl, _⟩ := Node.appendFor_ok h
  rw [← hterm]
  exact .inl ⟨rfl, rfl, prevIndex, prevTerm, entries, _, rfl⟩

/-- The leader takes note of an answer and, while the peer lags, sends it more. -/
theorem leader_follows_up {success : Bool} {m : Nat} (hcalm : Calm size T M s)
    (hl : s.node L = some l) (hj : j ≠ L) (hrole : l.role = .leader) (hterm : l.term = T)
    (h : l.onAppendResponse j T success m = .ok (l', out)) :
    Kept T l l' ∧ (l'.matchIndex[j]? = some l.log.length ∨
      ∃ o ∈ out, Between L j T ⟨L, o.recipient, o.message⟩) := by
  rcases Node.onAppendResponse_ok h with ⟨hno, _⟩ | ⟨_, _, known, hknown, hcase⟩
  · exact absurd hno (by simp [hrole, hterm])
  rcases hcase with ⟨_, hcommit, hout⟩ | ⟨_, next, o, _, heq, ho, rfl⟩
  swap
  · have ht : l'.term = T := by rw [heq]; exact hterm
    refine ⟨?_, .inr ⟨o, List.mem_singleton_self o, appendFor_between ht ho⟩⟩
    rw [heq]
    exact .of_eq hrole hterm rfl rfl rfl rfl
  obtain ⟨a, acts, hsim, _⟩ := hcalm.facts
  obtain ⟨r, hr, _, hledger, _, hmatch⟩ := (hsim.node hl).leader hrole
  obtain ⟨c, heq, _⟩ := Node.advanceCommit_ok hcommit
  have hlt := (List.getElem?_eq_some_iff.mp hknown).1
  have hset : l'.matchIndex = l.matchIndex.set j (max known (min m l.lastIndex)) := by
    rw [heq]
    rfl
  have ht : l'.term = T := by rw [heq]; exact hterm
  refine ⟨⟨by rw [heq]; exact hrole, ht, by rw [heq]; rfl, fun p hp => ?_⟩, ?_⟩
  · rw [hset]
    by_cases hjp : j = p
    · subst hjp
      rw [hknown] at hp
      cases hp
      rw [List.getElem?_set_self hlt]
      exact congrArg some (max_eq_left (min_le_right _ _))
    · rw [List.getElem?_set_ne hjp]
      exact hp
  · rcases hout with ⟨hfull, rfl⟩ | ⟨_, o, ho, rfl⟩
    · left
      rw [hset, List.getElem?_set_self hlt]
      congr 1
      have hbound : known ≤ l.lastIndex := by
        have hle := hsim.inv.ack_le_length hr (hmatch j known hj hknown)
        rw [hledger] at hle
        exact hle
      exact le_antisymm (max_le hbound (min_le_right _ _)) hfull
    · exact .inr ⟨o, List.mem_singleton_self o, appendFor_between ht ho⟩

theorem leader_answers (hcalm : Calm size T M s) (hl : s.node L = some l)
    (hrole : l.role = .leader) (hterm : l.term = T) (hT : msg.term ≤ T)
    (h : l.handle now j msg = .ok (l', out)) :
    Kept T l l' ∧ (j ≠ L → j < size → ∀ success m, msg = .appendResponse T success m →
      l'.matchIndex[j]? = some l.log.length ∨
        ∃ o ∈ out, Between L j T ⟨L, o.recipient, o.message⟩) := by
  obtain ⟨a, acts, hsim, _⟩ := hcalm.facts
  have hid : l.cfg.id = L := (hsim.node hl).id
  have hsize : l.cfg.clusterSize = size := (hsim.node hl).clusterSize
  rcases Node.handle_receives h with ⟨hignored, rfl, _⟩ | ⟨hne, _, f, hr, _, _, _, hf⟩
  · refine ⟨.of_eq hrole hterm rfl rfl rfl rfl, fun hj hlt => ?_⟩
    omega
  have hfl : f = l := by
    rcases hf with rfl | ⟨hlt, _⟩
    · rfl
    · omega
  subst hfl
  cases msg with
  | requestVote t lastLogIndex lastLogTerm =>
    refine ⟨?_, fun _ _ success m hm => by cases hm⟩
    rcases Node.onRequestVote_ok hr with ⟨rfl, _⟩ | ⟨_, _, _, _, deadline, rng, rfl⟩ <;>
      exact .of_eq hrole hterm rfl rfl rfl rfl
  | voteResponse t granted =>
    refine ⟨?_, fun _ _ success m hm => by cases hm⟩
    rcases Node.onVoteResponse_ok hr with ⟨rfl, _⟩ | ⟨hcand, _⟩
    · exact .of_eq hrole hterm rfl rfl rfl rfl
    · rw [hrole] at hcand
      cases hcand
  | appendEntries t prevIndex prevTerm entries leaderCommit =>
    refine ⟨?_, fun _ _ success m hm => by cases hm⟩
    rcases Node.onAppendEntries_ok hr with ⟨_, rfl, _⟩ | ⟨_, hno, _⟩
    · exact .of_eq hrole hterm rfl rfl rfl rfl
    · exact absurd hrole hno
  | appendResponse t success m =>
    rw [hid] at hne
    by_cases ht : t = T
    · subst ht
      obtain ⟨hkept, hmore⟩ := leader_follows_up hcalm hl hne hrole hterm hr
      exact ⟨hkept, fun _ _ _ _ _ => hmore⟩
    · rcases Node.onAppendResponse_ok hr with ⟨_, rfl, _⟩ | ⟨_, hsame, _⟩
      · refine ⟨.of_eq hrole hterm rfl rfl rfl rfl, fun _ _ success' m' hm => ?_⟩
        cases hm
        exact absurd rfl ht
      · exact absurd (hsame.trans hterm) ht

theorem follower_answers {prevIndex prevTerm leaderCommit : Nat} {entries : List Entry}
    (hle : n.term ≤ T) (hj : j ≠ n.cfg.id) (hlt : j < n.cfg.clusterSize)
    (h : n.handle now j (.appendEntries T prevIndex prevTerm entries leaderCommit) =
      .ok (n', out)) :
    ∃ o ∈ out, o.recipient = j ∧ ∃ success m, o.message = .appendResponse T success m := by
  rcases Node.handle_receives h with ⟨hignored, _⟩ | ⟨_, _, f, hr, _, _, hterm, _⟩
  · omega
  have hfT : f.term = T := hterm.trans (max_eq_right hle)
  rcases Node.onAppendEntries_ok hr with ⟨hlow, _⟩ | ⟨_, _, deadline, rng, hcase⟩
  · omega
  rcases hcase with ⟨_, _, rfl⟩ | ⟨hprev, _, m, hm, _, rfl⟩
  · refine ⟨_, List.mem_singleton_self _, rfl, false, ?_⟩
    rw [← hfT]
    exact ⟨_, rfl⟩
  · refine ⟨_, List.mem_singleton_self _, rfl, true, ?_⟩
    rw [← hfT]
    exact ⟨prevIndex + entries.length, by rw [(Node.mergeEntries_frame hprev hm).2]; rfl⟩

/-- `L` leads `T` with `log`, and each live peer is known to hold all of it or has a message
on its way. -/
structure Converging (T L : Nat) (log : List Entry) (x : Exchange) (l : Node Disk) : Prop where
  node : x.system.node L = some l
  role : l.role = .leader
  term : l.term = T
  holds : l.log = log
  peers : ∀ p n, x.system.node p = some n → p ≠ L →
    l.matchIndex[p]? = some log.length ∨ ∃ e ∈ x.inFlight, Between L p T e

theorem mem_inFlight {o : Outgoing} {flight : List Envelope}
    (hsent : s'.sent = s.sent ++ out.map fun o => ⟨i, o.recipient, o.message⟩) (ho : o ∈ out) :
    (⟨i, o.recipient, o.message⟩ : Envelope) ∈ flight ++ s'.sent.drop s.sent.length := by
  rw [drop_sent hsent]
  exact List.mem_append_right _ (List.mem_map.mpr ⟨o, ho, rfl⟩)

theorem live_before {d : List (Nat × Entry)} {p : Nat} {m : Node Disk} (hn : s.node i = some n)
    (hslots : s'.slots = Function.update s.slots i (.up n' d)) (hp : s'.node p = some m) :
    ∃ m', s.node p = some m' := by
  rcases System.node_of_update hslots hp with ⟨rfl, _⟩ | ⟨_, hold⟩
  · exact ⟨n, hn⟩
  · exact ⟨m, hold⟩

namespace Converging

variable {e : Envelope} {before after : List Envelope} {d : List (Nat × Entry)}

theorem lose (h : Converging T L log ⟨s, before ++ e :: after⟩ l)
    (hdown : s.node e.recipient = none) : Converging T L log ⟨s, before ++ after⟩ l := by
  refine ⟨h.node, h.role, h.term, h.holds, fun p n hn hp => ?_⟩
  rcases h.peers p n hn hp with hfull | ⟨e', he', hbetween⟩
  · exact .inl hfull
  rcases mem_of_mem_removed he' with rfl | he'
  · -- both ends of the message are live
    have hlive : s.node e'.recipient ≠ none := by
      rcases hbetween with ⟨_, hrecipient, _⟩ | ⟨_, hrecipient, _⟩
      · rw [hrecipient, hn]
        simp
      · rw [hrecipient, h.node]
        simp
    exact absurd hdown hlive
  · exact .inr ⟨e', he', hbetween⟩

theorem lead (h : Converging T L log ⟨s, before ++ e :: after⟩ l) (hcalm : Calm size T M s)
    (hT : e.message.term ≤ T) (hrecipient : e.recipient = L)
    (hh : l.handle now e.sender e.message = .ok (l', out))
    (hslots : s'.slots = Function.update s.slots L (.up l' d))
    (hsent : s'.sent = s.sent ++ out.map fun o => ⟨L, o.recipient, o.message⟩) :
    Converging T L log ⟨s', before ++ after ++ s'.sent.drop s.sent.length⟩ l' := by
  obtain ⟨a, acts, hsim, _⟩ := hcalm.facts
  obtain ⟨hkept, hmore⟩ := leader_answers hcalm h.node h.role h.term hT hh
  refine ⟨System.node_update_self hslots, hkept.role, hkept.term, hkept.log.trans h.holds,
    fun p n hn hp => ?_⟩
  obtain ⟨m, hm⟩ := live_before h.node hslots hn
  have hplt : p < size := (hsim.node hm).lt_size
  rw [← h.holds]
  rcases h.peers p m hm hp with hfull | ⟨e', he', hbetween⟩
  · rw [← h.holds] at hfull
    exact .inl (hkept.full p hfull)
  rcases mem_of_mem_removed he' with rfl | he'
  · rcases hbetween with ⟨_, hp', _⟩ | ⟨hsender, _, success, m, hmsg⟩
    · exact absurd (hp'.symm.trans hrecipient) hp
    · subst hsender
      rcases hmore hp hplt success m hmsg with hfull | ⟨o, ho, hbetween⟩
      · exact .inl hfull
      · exact .inr ⟨_, mem_inFlight hsent ho, hbetween⟩
  · exact .inr ⟨e', List.mem_append_left _ he', hbetween⟩

theorem follow (h : Converging T L log ⟨s, before ++ e :: after⟩ l) (hcalm : Calm size T M s)
    (hrecipient : e.recipient ≠ L) (hn : s.node e.recipient = some n)
    (hh : n.handle now e.sender e.message = .ok (n', out))
    (hslots : s'.slots = Function.update s.slots e.recipient (.up n' d))
    (hsent : s'.sent = s.sent ++ out.map fun o => ⟨e.recipient, o.recipient, o.message⟩) :
    Converging T L log ⟨s', before ++ after ++ s'.sent.drop s.sent.length⟩ l := by
  obtain ⟨a, acts, hsim, _⟩ := hcalm.facts
  have hL : s'.node L = some l := by
    rw [System.node_update_of_ne hslots (Ne.symm hrecipient)]
    exact h.node
  refine ⟨hL, h.role, h.term, h.holds, fun p m hm hp => ?_⟩
  obtain ⟨m', hm'⟩ := live_before hn hslots hm
  rcases h.peers p m' hm' hp with hfull | ⟨e', he', hbetween⟩
  · exact .inl hfull
  rcases mem_of_mem_removed he' with rfl | he'
  · rcases hbetween with ⟨hsender, hp', prevIndex, prevTerm, entries, lc, hmsg⟩ | ⟨_, hL', _⟩
    · rw [hmsg, hsender] at hh
      have hnode := hsim.node hn
      have hid : L ≠ n.cfg.id := by
        rw [hnode.id]
        exact Ne.symm hrecipient
      have hlt : L < n.cfg.clusterSize := by
        rw [hnode.clusterSize]
        exact (hsim.node h.node).lt_size
      obtain ⟨o, ho, hto, success, m, hmsg'⟩ :=
        follower_answers (hcalm.term_le e'.recipient n hn) hid hlt hh
      exact .inr ⟨_, mem_inFlight hsent ho, .inr ⟨hp', hto, success, m, hmsg'⟩⟩
    · exact absurd hL' hrecipient
  · exact .inr ⟨e', List.mem_append_left _ he', hbetween⟩

theorem deliver (h : Converging T L log x l) (hu : Underway size T M x)
    (hd : Delivers size x x') : ∃ l', Converging T L log x' l' := by
  cases hd with
  | lost s e before after hdown => exact ⟨l, h.lose hdown⟩
  | handled s s' e before after now hstep =>
    obtain ⟨_, hT⟩ := hu.sent e (by simp)
    obtain ⟨n, d, n', out, hslot, hin, hh, hslots, hsent⟩ := perform_handle_ok hstep
    have hn : s.node e.recipient = some n := System.node_eq_some.mpr ⟨d, hslot⟩
    by_cases hrecipient : e.recipient = L
    · rw [hrecipient] at hn hslots hsent
      obtain rfl : n = l := Option.some.inj (hn.symm.trans h.node)
      exact ⟨n', h.lead hu.calm hT hrecipient hh hslots hsent⟩
    · exact ⟨l, h.follow hu.calm hrecipient hn hh hslots hsent⟩

end Converging

/-! ## From the heartbeat to the end of the flight -/

theorem exists_calm {acts : List Action} (hrun : System.initial.run size acts = some s)
    (hterm : ∀ i n, s.node i = some n → n.term ≤ T)
    (hbatch : ∀ i n, s.node i = some n → 1 ≤ n.cfg.maxBatch) : ∃ M, Calm size T M s := by
  obtain ⟨a, hsim, _⟩ := run_simulates (.initial size) hrun
  have hle : ∀ i n, s.node i = some n →
      n.log.length + 1 ≤ ∑ i ∈ Finset.range size, (s.node i).elim 0 (·.log.length + 1) := by
    intro i n hn
    have hmem : i ∈ Finset.range size := Finset.mem_range.mpr (hsim.node hn).lt_size
    have hsingle := Finset.single_le_sum
      (f := fun i => (s.node i).elim 0 (·.log.length + 1)) (fun _ _ => Nat.zero_le _) hmem
    simpa only [hn, Option.elim_some] using hsingle
  exact ⟨_, ⟨acts, hrun⟩, hterm, hbatch, fun i n hn _ => (Nat.le_succ _).trans (hle i n hn),
    fun i n hn _ => hle i n hn⟩

theorem same_term_before {d : List (Nat × Entry)} {p : Nat} {m : Node Disk}
    (hn : s.node i = some n) (hslots : s'.slots = Function.update s.slots i (.up n' d))
    (hterm : n'.term = n.term) (hcfg : n'.cfg = n.cfg) (hp : s'.node p = some m) :
    ∃ m', s.node p = some m' ∧ m.term = m'.term ∧ m.cfg = m'.cfg := by
  rcases System.node_of_update hslots hp with ⟨rfl, _, hup⟩ | ⟨_, hold⟩
  · cases hup
    exact ⟨n, hn, hterm, hcfg⟩
  · exact ⟨m, hold, rfl, rfl⟩

theorem heartbeat_starts {s₀ : System} {flight : List Envelope} {acts : List Action}
    (hrun : System.initial.run size acts = some s) (hlead : s.Leads L l T)
    (hlive : ∀ i n, s.node i = some n → n.term ≤ T ∧ 1 ≤ n.cfg.maxBatch)
    (hflight : ∀ e ∈ flight, e ∈ s.sent ∧ e.message.term ≤ T)
    (hdue : l.heartbeatDeadline ≤ now)
    (hbeat : s.perform size (.call L (.tick now) .returns) = some s₀) :
    ∃ M l', Underway size T M ⟨s₀, flight ++ s₀.sent.drop s.sent.length⟩ ∧
      Converging T L l.log ⟨s₀, flight ++ s₀.sent.drop s.sent.length⟩ l' := by
  obtain ⟨hl, hrole, hterm⟩ := hlead
  obtain ⟨a, hsim, _⟩ := run_simulates (.initial size) hrun
  have hnode := hsim.node hl
  obtain ⟨n₁, d, l', out, answer, hslot, _, hcall, hslots, hsent⟩ := perform_returns_ok hbeat
  obtain rfl : n₁ = l :=
    Option.some.inj ((System.node_eq_some.mpr ⟨d, hslot⟩).symm.trans hl)
  obtain ⟨⟨n₂, out₂⟩, ht, hcall⟩ := bind_eq_ok.mp hcall
  cases hcall
  obtain ⟨deadline, rfl, hout⟩ := Node.tick_due hrole hdue ht
  have hL := System.node_update_self hslots
  have hnodes := fun i n (hn : s₀.node i = some n) =>
    same_term_before hl hslots (by rfl) (by rfl) hn
  obtain ⟨M, hcalm⟩ : ∃ M, Calm size T M s₀ := by
    apply exists_calm (run_concat hrun hbeat)
    · intro i n hn
      obtain ⟨m, hm, hmt, _⟩ := hnodes i n hn
      rw [hmt]
      exact (hlive i m hm).1
    · intro i n hn
      obtain ⟨m, hm, _, hmc⟩ := hnodes i n hn
      rw [hmc]
      exact (hlive i m hm).2
  refine ⟨M, _, ⟨hcalm, fun e he => ?_⟩, hL, hrole, hterm, rfl, fun p n hn hp => .inr ?_⟩
  · rw [drop_sent hsent] at he
    show e ∈ s₀.sent ∧ e.message.term ≤ T
    rw [hsent]
    rcases List.mem_append.mp he with hold | hnew
    · exact ⟨List.mem_append_left _ (hflight e hold).1, (hflight e hold).2⟩
    · refine ⟨List.mem_append_right _ hnew, ?_⟩
      obtain ⟨o, ho, rfl⟩ := List.mem_map.mp hnew
      obtain ⟨_, prevIndex, prevTerm, entries, _, hm⟩ := Node.broadcastAppend_ok hout o ho
      rw [hm]
      exact hterm.le
  · obtain ⟨m, hm, _⟩ := hnodes p n hn
    have hpeer : p ∈ n₁.peers := Node.mem_peers.mpr
      ⟨by rw [hnode.clusterSize]; exact (hsim.node hm).lt_size, by rw [hnode.id]; exact hp⟩
    obtain ⟨o, ho, hfor⟩ := Node.broadcastAppend_reaches hout hpeer
    exact ⟨_, mem_inFlight hsent ho, appendFor_between hterm hfor⟩

/-- The nodes of a cluster of `size` that are live. -/
def System.liveNodes (size : Nat) (s : System) : List Nat :=
  (List.range size).filter fun i => (s.node i).isSome

namespace Converging

theorem matched (h : Converging T L log x l) (hempty : x.inFlight = []) {p : Nat}
    (hn : x.system.node p = some n) (hp : p ≠ L) : l.matchIndex[p]? = some l.lastIndex := by
  rcases h.peers p n hn hp with hfull | ⟨e, he, _⟩
  · rw [← h.holds] at hfull
    exact hfull
  · rw [hempty] at he
    cases he

theorem caught_up (h : Converging T L log x l) (hcalm : Calm size T M x.system) {p : Nat}
    (hn : x.system.node p = some n) (hmatch : p ≠ L → l.matchIndex[p]? = some l.lastIndex) :
    n.log = l.log := by
  obtain ⟨a, acts, hsim, hholds, hbacked⟩ := hcalm.facts
  obtain ⟨r, hr, hlead, hledger, _⟩ := (hsim.node h.node).leader h.role
  have hbase := (hsim.inv.reign_bid hr).2
  rw [hledger] at hbase
  by_cases hp : p = L
  · subst hp
    rw [Option.some.inj (hn.symm.trans h.node)]
  have hpos : 0 < l.log.length := by omega
  obtain ⟨m, hle, hsent⟩ := hbacked.matched L l p _ h.node h.role (hmatch hp) hpos
  have hack : l.log.length ≤ a.ack p l.term := hle.trans (hsim.sent _ hsent)
  have hn' := hsim.node hn
  have hepoch : a.epoch p = l.term := by
    apply le_antisymm
    · rw [hn'.epoch, h.term]
      exact hcalm.term_le p n hn
    · exact (hsim.inv.ack_reign (by omega)).1
  rw [← hepoch] at hr hack
  rw [← hn'.log, hholds.eq_ledger hsim.inv hr (by rw [hledger]; exact hack), hledger]

theorem liveNodes_length_le (h : Converging T L log x l) (hcalm : Calm size T M x.system)
    (hmatch : ∀ p n, x.system.node p = some n → p ≠ L → l.matchIndex[p]? = some l.lastIndex) :
    (x.system.liveNodes size).length ≤
      1 + (l.peers.filter fun p => (l.matchIndex[p]?).any (l.lastIndex ≤ ·)).length := by
  obtain ⟨a, acts, hsim, _⟩ := hcalm.facts
  have hl := hsim.node h.node
  set reached := l.peers.filter fun p => (l.matchIndex[p]?).any (l.lastIndex ≤ ·)
  have hsub : (x.system.liveNodes size).toFinset ⊆ insert L reached.toFinset := by
    intro p hp
    obtain ⟨hlt, hsome⟩ := List.mem_filter.mp (List.mem_toFinset.mp hp)
    obtain ⟨n, hn⟩ := Option.isSome_iff_exists.mp hsome
    by_cases hpL : p = L
    · exact Finset.mem_insert.mpr (.inl hpL)
    · apply Finset.mem_insert_of_mem
      apply List.mem_toFinset.mpr
      apply List.mem_filter.mpr
      refine ⟨Node.mem_peers.mpr ⟨?_, ?_⟩, ?_⟩
      · rw [hl.clusterSize]
        exact List.mem_range.mp hlt
      · rw [hl.id]
        exact hpL
      · rw [hmatch p n hn hpL]
        simp
  have hcard := Finset.card_le_card hsub
  have hinsert := Finset.card_insert_le L reached.toFinset
  have hnodup : (x.system.liveNodes size).Nodup := List.nodup_range.filter _
  rw [List.toFinset_card_of_nodup hnodup] at hcard
  have hreached : reached.Nodup := Node.nodup_peers.filter _
  rw [List.toFinset_card_of_nodup hreached] at hinsert
  omega

/-- A leader whose log a live majority matches has committed all of it. -/
theorem commits (h : Converging T L log x l) (hcalm : Calm size T M x.system)
    (hmatch : ∀ p n, x.system.node p = some n → p ≠ L → l.matchIndex[p]? = some l.lastIndex)
    (hmajority : size / 2 + 1 ≤ (x.system.liveNodes size).length) :
    l.commitIndex = l.lastIndex := by
  obtain ⟨a, acts, hsim, _⟩ := hcalm.facts
  have hl := hsim.node h.node
  obtain ⟨r, hr, hlead, hledger, _⟩ := hl.leader h.role
  have hbase := (hsim.inv.reign_bid hr).2
  rw [hledger] at hbase
  obtain ⟨acts, hrun⟩ := hcalm.reachable
  refine le_antisymm hl.commit.le_length (run_settled hrun h.node h.role l.lastIndex ?_)
  obtain ⟨e, hlast⟩ : ∃ e, l.log[l.lastIndex - 1]? = some e :=
    ⟨_, List.getElem?_eq_getElem (by simp only [Node.lastIndex]; omega)⟩
  refine ⟨by simp only [Node.lastIndex]; omega, ⟨_, hlast, ?_⟩, ?_⟩
  · rw [← hledger] at hlast
    exact hsim.inv.reign_stamp hr _ _ hlast (by simp only [Node.lastIndex]; omega)
  · rw [hl.clusterSize]
    exact hmajority.trans (h.liveNodes_length_le hcalm hmatch)

theorem settle (h : Converging T L log x l) (hu : Underway size T M x)
    (hempty : x.inFlight = []) :
    (∀ p n, x.system.node p = some n → n.log = l.log) ∧
      (∀ p n, x.system.node p = some n → p ≠ L → l.matchIndex[p]? = some l.lastIndex) ∧
      (size / 2 + 1 ≤ (x.system.liveNodes size).length → l.commitIndex = l.lastIndex) := by
  have hmatch : ∀ p n, x.system.node p = some n → p ≠ L →
      l.matchIndex[p]? = some l.lastIndex := fun p n hn hp => h.matched hempty hn hp
  exact ⟨fun p n hn => h.caught_up hu.calm hn (hmatch p n hn), hmatch, h.commits hu.calm hmatch⟩

end Converging

/-! ## Which deliveries return -/

/-- A message in flight to a live node is handled, at any time that leaves room for the timers of
the node, exactly if the batches that answer it fit. -/
def Exchange.Yields (size : Nat) (x : Exchange) : Prop :=
  ∀ e ∈ x.inFlight, ∀ n, x.system.node e.recipient = some n → ∀ now, n.ClockFits now →
    ((∃ s', x.system.perform size (.call e.recipient (.handle now e.sender e.message) .returns) =
      some s') ↔ n.BatchesFit (.handle now e.sender e.message))

/-- Every message in flight to a live node is handled at any such time. -/
def Exchange.Flows (size : Nat) (x : Exchange) : Prop :=
  ∀ e ∈ x.inFlight, ∀ n, x.system.node e.recipient = some n → ∀ now, n.ClockFits now →
    ∃ s', x.system.perform size (.call e.recipient (.handle now e.sender e.message) .returns) =
      some s'

/-- Behind `K` there is room for a full batch of every live node. -/
def System.Spare (K : Nat) (s : System) : Prop :=
  ∀ i n, s.node i = some n → K + n.cfg.maxBatch < wordSize

variable {K : Nat}

theorem Exchange.Short.yields (h : x.Short K) (hword : K + 1 < wordSize)
    (hu : Underway size T M x) : x.Yields size := by
  intro e he n hn now hnow
  obtain ⟨acts, hrun⟩ := hu.calm.reachable
  have hin := (hu.sent e he).1
  have hreturns := handle_sent_returns hrun hn (h.nodes _ n hn) hword hin (h.flight e he) hnow
  rw [← hreturns]
  constructor
  · rintro ⟨s', hs'⟩
    obtain ⟨m, d, n', out, hslot, _, hh, _⟩ := perform_handle_ok hs'
    obtain rfl : m = n := Option.some.inj ((System.node_eq_some.mpr ⟨d, hslot⟩).symm.trans hn)
    exact ⟨_, hh⟩
  · intro hback
    exact perform_call_returns hn hin (Returns.bind_pure_iff.mpr hback)

theorem Exchange.Yields.flows (h : x.Yields size) (hshort : x.Short K) (hspare : x.system.Spare K)
    (hu : Underway size T M x) : x.Flows size := by
  intro e he n hn now hnow
  obtain ⟨acts, hrun⟩ := hu.calm.reachable
  exact (h e he n hn now hnow).mpr
    (batches_fit hrun hn ⟨hshort.nodes _ n hn, hspare _ n hn⟩ (.handle now e.sender e.message))

theorem Exchange.Short.deliver (h : x.Short K) (hu : Underway size T M x)
    (hd : Delivers size x x') : x'.Short K := by
  cases hd with
  | lost s e before after hdown =>
    exact ⟨h.nodes, fun e' he' => h.flight e' (mem_of_mem_kept he')⟩
  | handled s s' e before after now hstep =>
    obtain ⟨n, d, n', out, hslot, _, hh, hslots, hsent⟩ := perform_handle_ok hstep
    have hn : s.node e.recipient = some n := System.node_eq_some.mpr ⟨d, hslot⟩
    obtain ⟨a, acts, hsim, _⟩ := hu.calm.facts
    obtain ⟨hshort, hout⟩ := Node.handle_short (hsim.node hn).persisted (h.nodes _ n hn)
      (h.flight e (by simp)) hh
    constructor
    · intro p m hm
      rcases System.node_of_update hslots hm with ⟨rfl, _, hup⟩ | ⟨_, hold⟩
      · cases hup
        exact hshort
      · exact h.nodes p m hold
    · intro e' he'
      rw [drop_sent hsent] at he'
      rcases List.mem_append.mp he' with hold | hnew
      · exact h.flight e' (mem_of_mem_kept hold)
      · obtain ⟨o, ho, rfl⟩ := List.mem_map.mp hnew
        exact hout o ho

theorem System.Spare.deliver (h : x.system.Spare K) (hd : Delivers size x x') :
    x'.system.Spare K := by
  cases hd with
  | lost s e before after hdown => exact h
  | handled s s' e before after now hstep =>
    obtain ⟨n, d, n', out, hslot, _, hh, hslots, _⟩ := perform_handle_ok hstep
    intro p m hm
    rcases System.node_of_update hslots hm with ⟨rfl, _, hup⟩ | ⟨_, hold⟩
    · cases hup
      rw [(Node.handle_answered hh).2.cfg]
      exact h e.recipient n (System.node_eq_some.mpr ⟨d, hslot⟩)
    · exact h p m hold

theorem System.Spare.chain {k : Nat} (h : x.system.Spare K)
    (hchain : Descent.Chain (Delivers size) k x x') : x'.system.Spare K :=
  hchain.invariant (I := fun x => x.system.Spare K) (fun _ _ hs hd => hs.deliver hd) h

theorem heartbeat_returns {acts : List Action} (hrun : System.initial.run size acts = some s)
    (hlead : s.Leads L l T) (hnow : l.ClockFits now) :
    (∃ s', s.perform size (.call L (.tick now) .returns) = some s') ↔ l.BatchesFit (.tick now) := by
  obtain ⟨hl, hrole, _⟩ := hlead
  rw [← tick_leader_returns hrun hl hrole hnow]
  constructor
  · rintro ⟨s', hs'⟩
    obtain ⟨n, d, n', out, answer, hslot, _, hcall, _⟩ := perform_returns_ok hs'
    obtain rfl : n = l := Option.some.inj ((System.node_eq_some.mpr ⟨d, hslot⟩).symm.trans hl)
    exact ⟨_, (Node.call_tick_ok hcall).1⟩
  · intro hback
    exact perform_call_returns hl trivial (Returns.bind_pure_iff.mpr hback)

theorem heartbeat_short {s₀ : System} {flight : List Envelope} (hlead : s.Leads L l T)
    (hshort : Exchange.Short K ⟨s, flight⟩)
    (hbeat : s.perform size (.call L (.tick now) .returns) = some s₀) :
    Exchange.Short K ⟨s₀, flight ++ s₀.sent.drop s.sent.length⟩ := by
  obtain ⟨hl, hrole, _⟩ := hlead
  obtain ⟨n, d, l', out, answer, hslot, _, hcall, hslots, hsent⟩ := perform_returns_ok hbeat
  obtain rfl : n = l :=
    Option.some.inj ((System.node_eq_some.mpr ⟨d, hslot⟩).symm.trans hl)
  obtain ⟨htick, _⟩ := Node.call_tick_ok hcall
  obtain ⟨hbeaten, hout⟩ := Node.tick_short hrole (hshort.nodes L n hl) htick
  constructor
  · intro p m hm
    rcases System.node_of_update hslots hm with ⟨rfl, _, hup⟩ | ⟨_, hsame⟩
    · cases hup
      exact hbeaten
    · exact hshort.nodes p m hsame
  · intro e he
    rw [drop_sent hsent] at he
    rcases List.mem_append.mp he with hin | hnew
    · exact hshort.flight e hin
    · obtain ⟨o, ho, rfl⟩ := List.mem_map.mp hnew
      exact hout o ho

theorem heartbeat_spare {s₀ : System} (h : s.Spare K)
    (hbeat : s.perform size (.call L (.tick now) .returns) = some s₀) : s₀.Spare K := by
  obtain ⟨n, d, l', out, answer, hslot, _, hcall, hslots, _⟩ := perform_returns_ok hbeat
  intro p m hm
  rcases System.node_of_update hslots hm with ⟨rfl, _, hup⟩ | ⟨_, hold⟩
  · cases hup
    rw [(Node.call_timed hcall).cfg]
    exact h p n (System.node_eq_some.mpr ⟨d, hslot⟩)
  · exact h p m hold

/-- `L` leads `T` with `log`, every live peer is known to hold all of it or has a message on its
way, and logs and indices end below the largest word. -/
structure Replicating (size T M K L : Nat) (log : List Entry) (x : Exchange) : Prop where
  underway : Underway size T M x
  short : x.Short K
  word : K + 1 < wordSize
  converging : ∃ l, Converging T L log x l

namespace Replicating

theorem deliver (h : Replicating size T M K L log x) (hd : Delivers size x x') :
    Replicating size T M K L log x' := by
  obtain ⟨l, hconv⟩ := h.converging
  exact ⟨h.underway.deliver hd, h.short.deliver h.underway hd, h.word, hconv.deliver h.underway hd⟩

theorem chain (h : Replicating size T M K L log x) {k : Nat}
    (hchain : Descent.Chain (Delivers size) k x x') : Replicating size T M K L log x' :=
  hchain.invariant (fun _ _ hx hd => hx.deliver hd) h

theorem length_le (h : Replicating size T M K L log x) {k : Nat}
    (hchain : Descent.Chain (Delivers size) k x x') : k ≤ load size T M x := by
  have hpaid := hchain.length_le (I := Underway size T M) (μ := load size T M)
    (fun _ _ hu hd => hu.deliver hd) (fun _ _ hu hd => hu.load_lt hd) h.underway
  omega

theorem yields (h : Replicating size T M K L log x) : x.Yields size :=
  h.short.yields h.word h.underway

theorem flows (h : Replicating size T M K L log x) (hspare : x.system.Spare K) : x.Flows size :=
  h.yields.flows h.short hspare h.underway

theorem settled (h : Replicating size T M K L log x) (hempty : x.inFlight = []) :
    ∃ l, x.system.Leads L l T ∧ l.log = log ∧
      (∀ p n, x.system.node p = some n → n.log = l.log) ∧
      (∀ p n, x.system.node p = some n → p ≠ L → l.matchIndex[p]? = some l.lastIndex) ∧
      (size / 2 + 1 ≤ (x.system.liveNodes size).length → l.commitIndex = l.lastIndex) := by
  obtain ⟨l, hconv⟩ := h.converging
  exact ⟨l, ⟨hconv.node, hconv.role, hconv.term⟩, hconv.holds, hconv.settle h.underway hempty⟩

end Replicating

theorem heartbeat_replicates {acts : List Action} {flight : List Envelope} {s₀ : System}
    (hrun : System.initial.run size acts = some s) (hlead : s.Leads L l T)
    (hlive : ∀ i n, s.node i = some n → n.term ≤ T ∧ 1 ≤ n.cfg.maxBatch)
    (hflight : ∀ e ∈ flight, e ∈ s.sent ∧ e.message.term ≤ T)
    (hshort : Exchange.Short K ⟨s, flight⟩) (hword : K + 1 < wordSize)
    (hdue : l.heartbeatDeadline ≤ now)
    (hbeat : s.perform size (.call L (.tick now) .returns) = some s₀) :
    ∃ M, Replicating size T M K L l.log ⟨s₀, flight ++ s₀.sent.drop s.sent.length⟩ := by
  obtain ⟨M, l₀, hstart, hconv⟩ := heartbeat_starts hrun hlead hlive hflight hdue hbeat
  exact ⟨M, hstart, heartbeat_short hlead hshort hbeat, hword, l₀, hconv⟩

/-- From any reachable cluster whose node `L` leads `T` and that has no later term, live or in
flight, with logs and indices below the largest word: the heartbeat of `L` is sent, and each
message after it handled, exactly if the batches that are cut for it would end within a word at
their full size. Only finitely many deliveries are possible, and once nothing is in flight every
live log is that of `L`, who knows it, and has committed all of it if a majority is live. Where
`K` leaves room for a full batch of every live node, nothing is ever held up. -/
theorem replication_converges {acts : List Action} {flight : List Envelope}
    (hrun : System.initial.run size acts = some s) (hlead : s.Leads L l T)
    (hlive : ∀ i n, s.node i = some n → n.term ≤ T ∧ 1 ≤ n.cfg.maxBatch)
    (hflight : ∀ e ∈ flight, e ∈ s.sent ∧ e.message.term ≤ T)
    (hshort : Exchange.Short K ⟨s, flight⟩) (hword : K + 1 < wordSize)
    (hdue : l.heartbeatDeadline ≤ now) (hnow : l.ClockFits now) :
    ((∃ s₀, s.perform size (.call L (.tick now) .returns) = some s₀) ↔
        l.BatchesFit (.tick now)) ∧
      (s.Spare K → l.BatchesFit (.tick now)) ∧
      ∀ s₀, s.perform size (.call L (.tick now) .returns) = some s₀ →
        (∃ bound, ∀ k x, Descent.Chain (Delivers size) k
          ⟨s₀, flight ++ s₀.sent.drop s.sent.length⟩ x → k ≤ bound) ∧
        ∀ k x, Descent.Chain (Delivers size) k ⟨s₀, flight ++ s₀.sent.drop s.sent.length⟩ x →
          x.Yields size ∧ (s.Spare K → x.Flows size) ∧
          (x.inFlight = [] → ∃ l' : Node Disk, x.system.Leads L l' T ∧ l'.log = l.log ∧
            (∀ p n, x.system.node p = some n → n.log = l'.log) ∧
            (∀ p n, x.system.node p = some n → p ≠ L →
              l'.matchIndex[p]? = some l'.lastIndex) ∧
            (size / 2 + 1 ≤ (x.system.liveNodes size).length →
              l'.commitIndex = l'.lastIndex)) := by
  refine ⟨heartbeat_returns hrun hlead hnow, fun hspare => ?_, fun s₀ hbeat => ?_⟩
  · exact batches_fit hrun hlead.1 ⟨hshort.nodes L l hlead.1, hspare L l hlead.1⟩ (.tick now)
  obtain ⟨M, hstart⟩ := heartbeat_replicates hrun hlead hlive hflight hshort hword hdue hbeat
  refine ⟨⟨_, fun k x hchain => hstart.length_le hchain⟩, fun k x hchain => ?_⟩
  have hx := hstart.chain hchain
  refine ⟨hx.yields, fun hspare => hx.flows ?_, hx.settled⟩
  exact System.Spare.chain (heartbeat_spare hspare hbeat) hchain

/-! ## After the second election -/

/-- The heartbeat of the second leader while everything that was ever sent is in flight. -/
def System.beaten : System :=
  (System.succeeded.perform 3 (.call 1 (.tick 4) .returns)).get (by decide +kernel)

def Exchange.crowded : Exchange :=
  ⟨System.beaten, System.succeeded.sent ++ System.beaten.sent.drop System.succeeded.sent.length⟩

def Exchange.drained : Exchange :=
  (Run.exec (Exchange.deliverFirst 3) .crowded (.replicate 36 4)).get (by decide +kernel)

/-- Thirty-six deliveries bring the three entries of the leader to a peer that has rejected its
first attempt. -/
theorem replication_converges_succeeded :
    ⟨2, 1, .appendResponse 2 false 1⟩ ∈ Exchange.drained.system.sent ∧
      Descent.Chain (Delivers 3) 36 .crowded .drained ∧
      ∃ l : Node Disk, Exchange.drained.system.Leads 1 l 2 ∧ l.log = System.secondLeader.log ∧
        (∀ p n, Exchange.drained.system.node p = some n → n.log = l.log) ∧
        (∀ p n, Exchange.drained.system.node p = some n → p ≠ 1 →
          l.matchIndex[p]? = some l.lastIndex) ∧ l.commitIndex = l.lastIndex := by
  have hrun : System.initial.run 3 (System.opening ++ System.reigning ++ System.succession) =
      some System.succeeded :=
    Run.exec_append_eq_some.mpr ⟨_, System.run_reigned, System.run_succession⟩
  have hchain : Descent.Chain (Delivers 3) 36 .crowded .drained := by
    have hexec : Run.exec (Exchange.deliverFirst 3) .crowded (.replicate 36 4) = some .drained :=
      (Option.some_get _).symm
    exact .of_exec Exchange.deliverFirst_delivers hexec
  have hnodes : ∀ i n, System.succeeded.node i = some n →
      (n.term ≤ 2 ∧ 1 ≤ n.cfg.maxBatch) ∧ n.Roomy 3 := by
    intro i n hn
    obtain ⟨_, hsim, _⟩ := run_simulates (.initial 3) hrun
    have hall : ∀ i < 3, ∀ n ∈ System.succeeded.node i,
        (n.term ≤ 2 ∧ 1 ≤ n.cfg.maxBatch) ∧ n.Roomy 3 := by
      decide +kernel
    exact hall i (hsim.node hn).lt_size n hn
  have hshort : Exchange.Short 3 ⟨System.succeeded, System.succeeded.sent⟩ :=
    ⟨fun i n hn => (hnodes i n hn).2.toShort, by decide +kernel⟩
  have hspare : System.succeeded.Spare 3 := fun i n hn => (hnodes i n hn).2.batch
  have hdue : System.secondLeader.heartbeatDeadline ≤ 4 := by decide +kernel
  obtain ⟨hreturns, hfit, hall⟩ := replication_converges hrun
    ⟨System.node_secondLeader, by decide +kernel, by decide +kernel⟩
    (fun i n hn => (hnodes i n hn).1) (by decide +kernel) hshort (by decide) hdue
    (by decide +kernel)
  obtain ⟨s₀, hbeat⟩ := hreturns.mpr (hfit hspare)
  obtain rfl : System.beaten = s₀ := Option.get_of_eq_some _ hbeat
  obtain ⟨_, hdeliveries⟩ := hall System.beaten hbeat
  obtain ⟨_, _, hend⟩ := hdeliveries 36 .drained hchain
  obtain ⟨l, hlead, hlog, hlogs, hmatch, hcommit⟩ := hend (by decide +kernel)
  exact ⟨by decide +kernel, hchain, l, hlead, hlog, hlogs, hmatch, hcommit (by decide +kernel)⟩

/-! ## A batch without a limit -/

namespace System

def unlimited (id : Nat) : Config := { eager id with maxBatch := wordSize - 1 }

/-- Node 0 wins term 1, accepts a proposal and has sent its no-op alone and with the proposal. -/
def unlimitedOpening : List Action :=
  [.restart 0 (unlimited 0) 0, .restart 1 (unlimited 1) 0, .restart 2 (unlimited 2) 0,
    .call 0 (.tick 1) .returns,
    .call 1 (.handle 1 0 (.requestVote 1 0 0)) .returns,
    .call 0 (.handle 1 1 (.voteResponse 1 true)) .returns,
    .call 0 (.propose 1 [7]) .returns]

def overreaching : System := (initial.run 3 unlimitedOpening).get (by decide +kernel)

def overreacher : Node Disk := (overreaching.node 0).get (by decide +kernel)

def overreached : System :=
  (overreaching.perform 3 (.call 0 (.tick 2) .returns)).get (by decide +kernel)

/-- The no-op alone is in flight, apart from the heartbeat. -/
def early : List Envelope := [⟨0, 1, .appendEntries 1 0 0 [⟨1, []⟩] 0⟩]

end System

def Exchange.overreached : Exchange :=
  ⟨System.overreached, System.early ++ System.overreached.sent.drop System.overreaching.sent.length⟩

def Exchange.stuck : Exchange :=
  (Run.exec (Exchange.deliverFirst 3) .overreached [2]).get (by decide +kernel)

/-- With a batch size near the largest word the leader panics, at any time, on the answer to the
first of its two messages: the batch that would follow entry 1 has no end. -/
theorem unlimited_batch_stops_leader :
    System.initial.run 3 System.unlimitedOpening = some System.overreaching ∧
      System.overreaching.Leads 0 System.overreacher 1 ∧
      (∀ i < 3, ∀ n ∈ System.overreaching.node i, n.term ≤ 1 ∧ 1 ≤ n.cfg.maxBatch) ∧
      (∀ e ∈ System.early, e ∈ System.overreaching.sent ∧ e.message.term ≤ 1) ∧
      System.overreaching.perform 3 (.call 0 (.tick 2) .returns) = some System.overreached ∧
      Descent.Chain (Delivers 3) 1 .overreached .stuck ∧
      ⟨1, 0, .appendResponse 1 true 1⟩ ∈ Exchange.stuck.inFlight ∧
      ∃ n : Node Disk, Exchange.stuck.system.node 0 = some n ∧
        ∀ now, n.handle now 1 (.appendResponse 1 true 1) = .error .overflow := by
  have hexec : Run.exec (Exchange.deliverFirst 3) .overreached [2] = some .stuck :=
    (Option.some_get _).symm
  refine ⟨(Option.some_get _).symm, ⟨(Option.some_get _).symm, by decide +kernel,
    by decide +kernel⟩, by decide +kernel, by decide +kernel, (Option.some_get _).symm,
    .of_exec Exchange.deliverFirst_delivers hexec, by decide +kernel, ?_⟩
  exact ⟨_, rfl, fun now => rfl⟩

end

end Landsraad
