import Landsraad.Raft.Delivery
import Landsraad.Raft.Levelling
import Landsraad.Raft.Timers

/-!
# Pursuits

In a cluster whose nodes all follow one leader, the leader pursues each peer with messages. Each
one is answered and the answer is followed up, until the purpose is reached: that the peer holds
the whole log, and after that, that it has committed all of it. The number of hops that a message
may still lead to goes down with every hop.
-/

namespace Landsraad

open ReplicatedLog Checked

section

variable {size T L i j p now : Nat} {log : List Entry} {s s' : System} {n n' l l' : Node Disk}
  {msg : Message} {out : List Outgoing}

/-- Every node is up and in term `T`, which `l` leads from `L` with `log`, and none stands for
election. -/
structure Placid (size T L : Nat) (log : List Entry) (s : System) (l : Node Disk) : Prop where
  calm : Calm size T log.length s
  up : ∀ i < size, ∃ n, s.node i = some n
  joined : ∀ i n, s.node i = some n → n.term = T ∧ n.role ≠ .candidate
  node : s.node L = some l
  role : l.role = .leader
  holds : l.log = log

namespace Placid

theorem term (h : Placid size T L log s l) : l.term = T := (h.joined L l h.node).1

theorem lt_size (h : Placid size T L log s l) (hn : s.node i = some n) : i < size := by
  obtain ⟨a, acts, hsim, _⟩ := h.calm.facts
  exact (hsim.node hn).lt_size

theorem up_of_update {d : List (Nat × Entry)} (h : Placid size T L log s l)
    (hslots : s'.slots = Function.update s.slots i (.up n' d)) :
    ∀ k < size, ∃ m, s'.node k = some m := by
  intro k hk
  by_cases hki : k = i
  · subst hki
    exact ⟨n', System.node_update_self hslots⟩
  · rw [System.node_update_of_ne hslots hki]
    exact h.up k hk

theorem handled (h : Placid size T L log s l) (hT : msg.term ≤ T)
    (hp : s.perform size (.call i (.handle now j msg) .returns) = some s') :
    ∃ l', Placid size T L log s' l' ∧ Kept T l l' ∧
      l'.heartbeatDeadline = l.heartbeatDeadline := by
  have hcalm := h.calm.handled hT hp
  obtain ⟨n, d, n', out, hslot, _, hh, hslots, _⟩ := perform_handle_ok hp
  have hn : s.node i = some n := System.node_eq_some.mpr ⟨d, hslot⟩
  obtain ⟨_, hans⟩ := Node.handle_answered hh
  have hjoined : ∀ k m, s'.node k = some m → m.term = T ∧ m.role ≠ .candidate := by
    intro k m hm
    rcases System.node_of_update hslots hm with ⟨rfl, _, hup⟩ | ⟨_, hold⟩
    · cases hup
      have hlow := (Node.call_timed (Node.call_handle hh)).term_le
      have hhigh := hcalm.term_le k n' (System.node_update_self hslots)
      rw [(h.joined k n hn).1] at hlow
      exact ⟨le_antisymm hhigh hlow, fun hc => (h.joined k n hn).2 (hans.candidate hc).1⟩
    · exact h.joined k m hold
  by_cases hi : i = L
  · subst hi
    obtain rfl : n = l := Option.some.inj (hn.symm.trans h.node)
    have hself := System.node_update_self hslots
    obtain ⟨hkept, _⟩ := leader_answers h.calm hn h.role h.term hT hh
    refine ⟨n', ⟨hcalm, h.up_of_update hslots, hjoined, hself, hkept.role,
      hkept.log.trans h.holds⟩, hkept, ?_⟩
    rcases Node.handle_reigns h.role hh with hlt | ⟨_, _, hsame⟩
    · have hterm := (hjoined i n' hself).1
      rw [h.term, hterm] at hlt
      exact absurd hlt (lt_irrefl T)
    · exact hsame
  · refine ⟨l, ⟨hcalm, h.up_of_update hslots, hjoined, ?_, h.role, h.holds⟩,
      .of_eq h.role h.term rfl rfl rfl rfl, rfl⟩
    rw [System.node_update_of_ne hslots (Ne.symm hi)]
    exact h.node

theorem beaten (h : Placid size T L log s l) (hdue : l.heartbeatDeadline ≤ now)
    (hp : s.perform size (.call L (.tick now) .returns) = some s') :
    ∃ l' out, Placid size T L log s' l' ∧ Kept T l l' ∧ l'.matchIndex = l.matchIndex ∧
      l'.commitIndex = l.commitIndex ∧ l'.broadcastAppend = .ok out ∧
      (∀ k, k ≠ L → s'.node k = s.node k) ∧
      s'.sent = s.sent ++ out.map fun o => ⟨L, o.recipient, o.message⟩ := by
  obtain ⟨n, d, l', out, answer, hslot, _, hcall, hslots, hsent⟩ := perform_returns_ok hp
  obtain rfl : n = l :=
    Option.some.inj ((System.node_eq_some.mpr ⟨d, hslot⟩).symm.trans h.node)
  obtain ⟨htick, _⟩ := Node.call_tick_ok hcall
  obtain ⟨deadline, rfl, hout⟩ := Node.tick_due h.role hdue htick
  have hself := System.node_update_self hslots
  have hcase : ∀ k m, s'.node k = some m → ∃ m', s.node k = some m' ∧ m.term = m'.term ∧
      m.role = m'.role ∧ m.log = m'.log ∧ m.cfg = m'.cfg := by
    intro k m hm
    rcases System.node_of_update hslots hm with ⟨rfl, _, hup⟩ | ⟨_, hold⟩
    · cases hup
      exact ⟨n, h.node, rfl, rfl, rfl, rfl⟩
    · exact ⟨m, hold, rfl, rfl, rfl, rfl⟩
  obtain ⟨acts, hrun⟩ := h.calm.reachable
  have hcalm : Calm size T log.length s' := by
    refine ⟨⟨_, run_concat hrun hp⟩, ?_, ?_, ?_, ?_⟩
    · intro k m hm
      obtain ⟨m', hm', hterm, _⟩ := hcase k m hm
      exact hterm.trans_le (h.calm.term_le k m' hm')
    · intro k m hm
      obtain ⟨m', hm', _, _, _, hcfg⟩ := hcase k m hm
      rw [hcfg]
      exact h.calm.batch k m' hm'
    · intro k m hm hrole
      obtain ⟨m', hm', _, hsame, hlog, _⟩ := hcase k m hm
      rw [hlog]
      exact h.calm.leader_le k m' hm' (hsame.symm.trans hrole)
    · intro k m hm hrole
      obtain ⟨m', hm', _, hsame, hlog, _⟩ := hcase k m hm
      rw [hlog]
      exact h.calm.candidate_lt k m' hm' (hsame.symm.trans hrole)
  have hjoined : ∀ k m, s'.node k = some m → m.term = T ∧ m.role ≠ .candidate := by
    intro k m hm
    obtain ⟨m', hm', hterm, hsame, _⟩ := hcase k m hm
    rw [hterm, hsame]
    exact h.joined k m' hm'
  exact ⟨_, out, ⟨hcalm, h.up_of_update hslots, hjoined, hself, h.role, h.holds⟩,
    .of_eq h.role h.term rfl rfl rfl rfl, rfl, rfl, hout,
    fun k hk => System.node_update_of_ne hslots hk, hsent⟩

theorem lighter (h : Placid size T L log s l) (hin : ⟨j, i, msg⟩ ∈ s.sent) (hT : msg.term ≤ T)
    (hn : s.node i = some n) (hh : n.handle now j msg = .ok (n', out))
    (hsent : s'.sent = s.sent ++ out.map fun o => ⟨i, o.recipient, o.message⟩) {o : Outgoing}
    (ho : o ∈ out) : weight T log.length s' ⟨i, o.recipient, o.message⟩ <
      weight T log.length s ⟨j, i, msg⟩ := by
  have hsub : s.sent ⊆ s'.sent := by
    rw [hsent]
    exact List.subset_append_left _ _
  have hlighter : Lighter size T log.length s s' ⟨j, i, msg⟩ n n' out :=
    handle_lighter h.calm hin hsub hT hn hh
  have hnone : potential size T log.length n = 0 := if_neg (h.joined i n hn).2
  have hone := List.single_le_sum (l := out.map fun o =>
    weight T log.length s' ⟨i, o.recipient, o.message⟩) (fun _ _ => Nat.zero_le _) _
    (List.mem_map.mpr ⟨o, ho, rfl⟩)
  simp only [Lighter, hnone] at hlighter
  omega

end Placid

/-- One event of a placid cluster. -/
structure Turn (size T L : Nat) (log : List Entry) (s : System) (l : Node Disk) (s' : System)
    (l' : Node Disk) : Prop where
  before : Placid size T L log s l
  after : Placid size T L log s' l'
  kept : Kept T l l'

/-- What a leader that is `Ready` may pursue. A message that `Chases` it needs so many hops at
most, one of which is its own. -/
structure Pursuit (size T L : Nat) (log : List Entry) where
  Ready : Node Disk → Prop
  Done : System → Node Disk → Prop
  Chases : System → Envelope → Nat → Prop
  /-- The hops that a heartbeat may lead to. -/
  hops : Nat
  ready : ∀ {l l'}, Kept T l l' → l.log = log → Ready l → Ready l'
  mono : ∀ {s s' e w}, s.sent ⊆ s'.sent → Chases s e w → Chases s' e w
  pos : ∀ {s e w}, Chases s e w → 0 < w
  apart : ∀ {s e w}, Chases s e w → e.sender < size ∧ e.recipient < size ∧ e.sender ≠ e.recipient
  handled : ∀ {s s' l l' i j now msg}, Turn size T L log s l s' l' → Ready l → msg.term ≤ T →
    s.perform size (.call i (.handle now j msg) .returns) = some s' → Done s l → Done s' l'
  answered : ∀ {s s' l l' i j now msg w}, Turn size T L log s l s' l' → Ready l →
    s.perform size (.call i (.handle now j msg) .returns) = some s' →
    Chases s ⟨j, i, msg⟩ w →
    Done s' l' ∨ ∃ e w', e ∈ s'.sent.drop s.sent.length ∧ w' < w ∧ Chases s' e w'
  beaten : ∀ {s s' l l' out}, Turn size T L log s l s' l' → Ready l →
    l'.matchIndex = l.matchIndex → l'.commitIndex = l.commitIndex →
    l'.broadcastAppend = .ok out → (∀ k, k ≠ L → s'.node k = s.node k) →
    s'.sent = s.sent ++ (out.map fun o => ⟨L, o.recipient, o.message⟩) →
    (Done s l → Done s' l') ∧ (Done s' l' ∨ ∃ e ∈ s'.sent.drop s.sent.length, Chases s' e hops)

/-- Nothing is pursued: what is left is that the cluster stays placid. -/
def Pursuit.none : Pursuit size T L log where
  Ready _ := True
  Done _ _ := True
  Chases _ _ _ := False
  hops := 0
  ready _ _ h := h
  mono _ h := h
  pos h := h.elim
  apart h := h.elim
  handled _ _ _ _ h := h
  answered _ _ _ h := h.elim
  beaten _ _ _ _ _ _ _ := ⟨id, .inl trivial⟩

/-! ## Until the peer holds the log -/

theorem Placid.mem_peers (h : Placid size T L log s l) : p ∈ l.peers ↔ p < size ∧ p ≠ L := by
  obtain ⟨a, acts, hsim, _⟩ := h.calm.facts
  have hl := hsim.node h.node
  rw [Node.mem_peers, hl.clusterSize, hl.id]

theorem Between.apart {e : Envelope} (h : Between L p T e) (hL : L < size) (hlt : p < size)
    (hne : p ≠ L) : e.sender < size ∧ e.recipient < size ∧ e.sender ≠ e.recipient := by
  rcases h with ⟨hs, hr, _⟩ | ⟨hs, hr, _⟩ <;> rw [hs, hr]
  · exact ⟨hL, hlt, Ne.symm hne⟩
  · exact ⟨hlt, hL, hne⟩

/-- Between the leader and a lagging peer a lighter message follows each one. -/
theorem Between.answered (ht : Turn size T L log s l s' l') (hlt : p < size) (hne : p ≠ L)
    (hp : s.perform size (.call i (.handle now j msg) .returns) = some s')
    (hb : Between L p T ⟨j, i, msg⟩) :
    l'.matchIndex[p]? = some log.length ∨ ∃ e ∈ s'.sent.drop s.sent.length, Between L p T e ∧
      weight T log.length s' e < weight T log.length s ⟨j, i, msg⟩ := by
  obtain ⟨n, d, n', out, hslot, hin, hh, hslots, hsent⟩ := perform_handle_ok hp
  have hn : s.node i = some n := System.node_eq_some.mpr ⟨d, hslot⟩
  obtain ⟨a, acts, hsim, _⟩ := ht.before.calm.facts
  have hnode := hsim.node hn
  have hmore : ∀ o ∈ out, msg.term ≤ T → Between L p T ⟨i, o.recipient, o.message⟩ →
      ∃ e ∈ s'.sent.drop s.sent.length, Between L p T e ∧
        weight T log.length s' e < weight T log.length s ⟨j, i, msg⟩ := by
    intro o ho hT hbetween
    refine ⟨_, ?_, hbetween, ht.before.lighter hin hT hn hh hsent ho⟩
    rw [drop_sent hsent]
    exact List.mem_map.mpr ⟨o, ho, rfl⟩
  rcases hb with ⟨rfl, rfl, prevIndex, prevTerm, entries, leaderCommit, rfl⟩ |
    ⟨rfl, rfl, success, m, rfl⟩
  · -- the peer answers
    right
    have hid : j ≠ n.cfg.id := by
      rw [hnode.id]
      exact Ne.symm hne
    have hsize : j < n.cfg.clusterSize := by
      rw [hnode.clusterSize]
      exact ht.before.lt_size ht.before.node
    obtain ⟨o, ho, hto, success, m, hmsg⟩ :=
      follower_answers (ht.before.joined i n hn).1.le hid hsize hh
    exact hmore o ho le_rfl (.inr ⟨rfl, hto, success, m, hmsg⟩)
  · -- the leader follows the answer up
    obtain rfl : n = l := Option.some.inj (hn.symm.trans ht.before.node)
    obtain rfl : n' = l' :=
      Option.some.inj ((System.node_update_self hslots).symm.trans ht.after.node)
    obtain ⟨_, hfollow⟩ :=
      leader_answers ht.before.calm hn ht.before.role ht.before.term le_rfl hh
    rw [ht.before.holds] at hfollow
    rcases hfollow hne hlt success m rfl with hfull | ⟨o, ho, hbetween⟩
    · exact .inl hfull
    · exact .inr (hmore o ho le_rfl hbetween)

theorem weight_appendFor {o : Outgoing} (hterm : l.term = T) (hlog : l.log = log)
    (h : l.appendFor p = .ok o) :
    weight T log.length s ⟨L, o.recipient, o.message⟩ ≤ 4 * log.length + 2 := by
  obtain ⟨prevIndex, prevTerm, entries, ⟨hle, _⟩, rfl, _⟩ := Node.appendFor_ok h
  rw [hlog] at hle
  simp only [weight, lightness, Message.term, hterm, Nat.sub_self, Nat.zero_mul, Nat.zero_add]
  split <;> omega

/-- The peer is pursued until it is known to hold the whole log. -/
def Pursuit.catchUp (hL : L < size) (hlt : p < size) (hne : p ≠ L) : Pursuit size T L log where
  Ready _ := True
  Done _ l := l.matchIndex[p]? = some log.length
  Chases s e w := Between L p T e ∧ weight T log.length s e ≤ w
  hops := 4 * log.length + 2
  ready _ _ h := h
  mono hsub h := ⟨h.1, (weight_mono hsub _).trans h.2⟩
  pos h := (weight_pos _).trans_le h.2
  apart h := h.1.apart hL hlt hne
  handled ht _ _ _ hdone := by
    rw [← ht.before.holds] at hdone ⊢
    exact ht.kept.full p hdone
  answered ht _ hp hc := by
    rcases hc.1.answered ht hlt hne hp with hfull | ⟨e, he, hbetween, hlower⟩
    · exact .inl hfull
    · exact .inr ⟨e, _, he, hlower.trans_le hc.2, hbetween, le_rfl⟩
  beaten ht _ hmatch _ hout _ hsent := by
    refine ⟨fun hdone => by rw [hmatch]; exact hdone, .inr ?_⟩
    obtain ⟨o, ho, hfor⟩ :=
      Node.broadcastAppend_reaches hout (ht.after.mem_peers.mpr ⟨hlt, hne⟩)
    refine ⟨_, ?_, appendFor_between ht.after.term hfor,
      weight_appendFor ht.after.term ht.after.holds hfor⟩
    rw [drop_sent hsent]
    exact List.mem_map.mpr ⟨o, ho, rfl⟩

/-! ## Until the peer has committed -/

/-- The leader knows that every peer holds the whole log. -/
def Node.Matched (size L : Nat) (log : List Entry) (l : Node Disk) : Prop :=
  ∀ q < size, q ≠ L → l.matchIndex[q]? = some log.length

namespace Placid

theorem converging (h : Placid size T L log s l) (hm : l.Matched size L log) :
    Converging T L log ⟨s, []⟩ l :=
  ⟨h.node, h.role, h.term, h.holds, fun q _ hn hq => .inl (hm q (h.lt_size hn) hq)⟩

theorem matched (h : Placid size T L log s l) (hm : l.Matched size L log) :
    (∀ q n, s.node q = some n → n.log = log) ∧ l.commitIndex = log.length := by
  have hconv := h.converging hm
  have hmatch : ∀ q n, s.node q = some n → q ≠ L → l.matchIndex[q]? = some l.lastIndex := by
    intro q n hn hq
    rw [Node.lastIndex, h.holds]
    exact hm q (h.lt_size hn) hq
  refine ⟨fun q n hn => ?_, ?_⟩
  · exact (hconv.caught_up h.calm hn (hmatch q n hn)).trans h.holds
  · have hall : s.liveNodes size = List.range size := by
      apply List.filter_eq_self.mpr
      intro q hq
      obtain ⟨n, hn⟩ := h.up q (List.mem_range.mp hq)
      rw [hn]
      rfl
    have hpos := h.lt_size h.node
    rw [hconv.commits h.calm hmatch (by rw [hall, List.length_range]; omega), Node.lastIndex,
      h.holds]

/-- No leader commit of the term is beyond the leader's log, so none pulls back a commit index
that covers it. -/
theorem keeps_level (h : Placid size T L log s l) (hT : msg.term ≤ T)
    (hin : ⟨j, i, msg⟩ ∈ s.sent) (hn : s.node i = some n) (hh : n.handle now j msg = .ok (n', out))
    (hlevel : log.length ≤ n.commitIndex) : log.length ≤ n'.commitIndex := by
  by_contra hlow
  have hpulls := ((Node.handle_shifts hh).falls _ hlevel).mp (Nat.lt_of_not_le hlow)
  cases msg with
  | appendEntries term prevIndex prevTerm entries leaderCommit =>
    obtain ⟨_, _, hterm, _, _, _, hlate⟩ := hpulls
    rw [(h.joined i n hn).1] at hterm
    have heq : term = T := le_antisymm hT hterm
    obtain ⟨a, acts, hsim, _⟩ := h.calm.facts
    obtain ⟨r, hr, _, _, hcertified⟩ := hsim.sent _ hin
    obtain ⟨r', hr', _, hledger, _⟩ := (hsim.node h.node).leader h.role
    rw [h.term, ← heq] at hr'
    obtain rfl : r = r' := Option.some.inj (hr.symm.trans hr')
    have hbound := hcertified.le_length
    rw [hledger, h.holds] at hbound
    omega
  | _ => exact hpulls.elim

end Placid

/-- A peer that holds the whole log is pursued until it has committed all of it. -/
def Pursuit.levelUp (hL : L < size) (hlt : p < size) (hne : p ≠ L) : Pursuit size T L log where
  Ready l := l.Matched size L log
  Done s _ := ∀ n, s.node p = some n → log.length ≤ n.commitIndex
  Chases _ e w := e.recipient = p ∧ Notice T L log e ∧ 0 < w
  hops := 1
  ready hk hlog h q hq hqL := by
    rw [← hlog]
    exact hk.full q (by rw [hlog]; exact h q hq hqL)
  mono _ h := h
  pos h := h.2.2
  apart := by
    rintro s e w ⟨rfl, ⟨hs, hr, _⟩ | ⟨hr, _⟩, _⟩
    · rw [hs]
      exact ⟨hL, hlt, Ne.symm hr⟩
    · exact absurd hr hne
  handled ht _ hT hp hdone := by
    intro m hm
    obtain ⟨n, d, n', out, hslot, hin, hh, hslots, _⟩ := perform_handle_ok hp
    rcases System.node_of_update hslots hm with ⟨rfl, _, hup⟩ | ⟨_, hold⟩
    · cases hup
      have hn := System.node_eq_some.mpr ⟨d, hslot⟩
      exact ht.before.keeps_level hT hin hn hh (hdone n hn)
    · exact hdone m hold
  answered ht hready hp hc := by
    obtain ⟨n, d, n', out, hslot, _, hh, hslots, _⟩ := perform_handle_ok hp
    have hn := System.node_eq_some.mpr ⟨d, hslot⟩
    obtain ⟨rfl, hnotice, _⟩ := hc
    left
    intro m hm
    obtain rfl : n' = m := Option.some.inj ((System.node_update_self hslots).symm.trans hm)
    rcases hnotice with ⟨rfl, _, t, hterm, rfl⟩ | ⟨hL, _⟩
    · obtain ⟨a, acts, hsim, _⟩ := ht.before.calm.facts
      have hid := (hsim.node hn).id
      have hsize := (hsim.node hn).clusterSize
      have hself := ht.before.lt_size ht.before.node
      exact (follower_levels (ht.before.joined _ n hn).1.le (by rw [hid]; exact Ne.symm hne)
        (by rw [hsize]; exact hself) ((ht.before.matched hready).1 _ n hn) hterm hh).2.1
    · exact absurd hL hne
  beaten ht hready hmatch hcommit hout hothers hsent := by
    refine ⟨fun hdone m hm => hdone m (by rw [← hothers p hne]; exact hm), .inr ?_⟩
    obtain ⟨o, ho, hfor⟩ :=
      Node.broadcastAppend_reaches hout (ht.after.mem_peers.mpr ⟨hlt, hne⟩)
    obtain ⟨acts, hrun⟩ := ht.after.calm.reachable
    have hready' : _ = some log.length := hready p hlt hne
    rw [← hmatch] at hready'
    obtain ⟨hto, hnotice⟩ := appendFor_notice (run_ranged hrun L _ ht.after.node) ht.after.role
      ht.after.term ht.after.holds (hcommit.trans (ht.before.matched hready).2) hne hready' hfor
    refine ⟨_, ?_, hto, hnotice, Nat.one_pos⟩
    rw [drop_sent hsent]
    exact List.mem_map.mpr ⟨o, ho, rfl⟩

end

end Landsraad
