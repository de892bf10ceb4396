import Landsraad.Sim.NodeCalls

/-!
# A stable leader

Over links of a fixed delay and without faults, a leader that the other nodes have heard of once
is never deposed. Its heartbeats leave at most one interval apart, so they arrive at most one
interval apart, and an arrival is handled before the timers of its tick run. Every deadline that
a follower draws is at least the shortest timeout away, so the next heartbeat comes in time
whatever was drawn.
-/

namespace Landsraad

open Cluster Run Heartbeat

/-- A channel that hands out every datagram, intact, when its clock comes to `delay` ticks after
the stamp of the datagram, and at no other tick. -/
structure Channel.FixedDelay (χ : Type) [Channel χ] (delay : Nat) extends
    Channel.Timing χ delay where
  frames : (Channel.frames χ).Faithful
  delay_pos : 0 < delay
  on_time : ∀ c k, k ∈ handed c (clock c + 1) ↔
    ∃ stamp b, (sends c)[k]? = some (stamp, b) ∧ stamp + delay = clock c + 1
  intact : ∀ c t, List.Forall₂ (fun b k => b ∈ ((sends c)[k]?).map Prod.snd)
    (Channel.advance c t).2 (handed c t)

/-- The message was put on the channel at the tick `stamp`. -/
def Channel.Timing.Sent {χ : Type} [Channel χ] {delay : Nat} (T : Channel.Timing χ delay) (c : χ)
    (stamp : Nat) (m : Message) : Prop :=
  ∃ b, (stamp, b) ∈ T.sends c ∧ Channel.read χ b = some m

/-- A step that crashes no node and cuts no link, or a proposal. -/
def Cluster.Undisturbed {χ : Type} (c : Cluster χ) : Op → Prop
  | .step d => (c.cfg.faults.crash && d.crash) = false ∧
      (c.cfg.faults.partition && d.partition) = false ∧ Uneventful c.cfg.faults d
  | .propose _ => True
  | _ => False

variable {χ : Type} [Channel χ] {delay : Nat}

namespace Channel.FixedDelay

variable (F : Channel.FixedDelay χ delay)

theorem faithful : Channel.Faithful χ F.toTiming.Carried :=
  F.toTiming.faithful F.frames fun c t => (F.intact c t).imp fun _ _ => .inl

theorem arrives_iff {c : χ} {b : List UInt8} : b ∈ (Channel.advance c (F.clock c + 1)).2 ↔
    ∃ stamp, (stamp, b) ∈ F.sends c ∧ stamp + delay = F.clock c + 1 := by
  have hall := F.intact c (F.clock c + 1)
  constructor
  · intro hb
    obtain ⟨p, hp, rfl⟩ := List.getElem_of_mem hb
    have hp' : p < (F.handed c (F.clock c + 1)).length := hall.length_eq ▸ hp
    have hsame := hall.get hp hp'
    obtain ⟨stamp, b', hk, hdue⟩ := (F.on_time c _).mp (List.getElem_mem hp')
    rw [List.get_eq_getElem, List.get_eq_getElem, hk] at hsame
    have hbytes : b' = (Channel.advance c (F.clock c + 1)).2[p] := Option.some.inj hsame
    exact ⟨stamp, hbytes ▸ List.mem_of_getElem? hk, hdue⟩
  · rintro ⟨stamp, hb, hdue⟩
    obtain ⟨k, hk⟩ := List.getElem?_of_mem hb
    have hhanded := (F.on_time c k).mpr ⟨stamp, b, hk, hdue⟩
    obtain ⟨p, hp, he⟩ := List.getElem_of_mem hhanded
    have hp' : p < (Channel.advance c (F.clock c + 1)).2.length := hall.length_eq ▸ hp
    have hsame := hall.get hp' hp
    rw [List.get_eq_getElem, List.get_eq_getElem, he, hk] at hsame
    have hbytes : b = (Channel.advance c (F.clock c + 1)).2[p] := Option.some.inj hsame
    rw [hbytes]
    exact List.getElem_mem hp'

end Channel.FixedDelay

theorem mem_advanceLinks {c : Cluster χ} {i j : Nat} {b : List UInt8} :
    (i, j, b) ∈ c.advanceLinks.2 ↔ i < c.cfg.n ∧ j < c.cfg.n ∧ i ≠ j ∧
      b ∈ (Channel.advance (c.links i j) c.now).2 := by
  simp only [advanceLinks, List.mem_flatMap, List.mem_range]
  constructor
  · rintro ⟨p, hp, q, hq, h⟩
    split at h
    · next hne =>
      obtain ⟨x, hx, he⟩ := List.mem_map.mp h
      cases he
      exact ⟨hp, hq, hne, hx⟩
    · cases h
  · rintro ⟨hi, hj, hne, h⟩
    refine ⟨i, hi, j, hj, ?_⟩
    rw [if_pos hne]
    exact List.mem_map.mpr ⟨b, h, rfl⟩

/-! ## What a call keeps -/

variable {T : Channel.Timing χ delay} {cfg : ClusterConfig} {c c' base : Cluster χ}
  {term L start k t τ : Nat} {i : Nat} {call : Call}

theorem Channel.Timing.Sent.mono {x y : χ} {stamp : Nat} {m : Message} (h : T.Sent x stamp m)
    (hsub : T.sends x ⊆ T.sends y) : T.Sent y stamp m := by
  obtain ⟨b, hb, hread⟩ := h
  exact ⟨b, hsub hb, hread⟩

theorem Channel.Timing.Sent.congr {x y : χ} {stamp : Nat} {m : Message} (h : T.Sent x stamp m)
    (hsame : T.sends y = T.sends x) : T.Sent y stamp m := by
  obtain ⟨b, hb, hread⟩ := h
  exact ⟨b, by rw [hsame]; exact hb, hread⟩

section Checked

variable {x : χ} {stamp : Nat} {P : Message → Prop} [DecidablePred P]

theorem Channel.Timing.exists_sent (h : ∃ d ∈ T.sends x, d.1 = stamp ∧
    ((Channel.read χ d.2).any fun m => decide (P m)) = true) : ∃ m, T.Sent x stamp m ∧ P m := by
  obtain ⟨⟨s, b⟩, hd, hs, hany⟩ := h
  obtain ⟨m, hread, hm⟩ := (Option.any_eq_true _ _).mp hany
  subst hs
  exact ⟨m, ⟨b, hd, hread⟩, of_decide_eq_true hm⟩

theorem Channel.Timing.forall_sent (h : ∀ d ∈ T.sends x,
    ((Channel.read χ d.2).all fun m => decide (P m)) = true) {m : Message}
    (hm : T.Sent x stamp m) : P m := by
  obtain ⟨b, hb, hread⟩ := hm
  have hall := h _ hb
  rw [hread, Option.all_some] at hall
  exact of_decide_eq_true hall

end Checked

/-- The ticks at which `i` put an AppendEntries of the term on its link to `j`. -/
def heartbeats (T : Channel.Timing χ delay) (c : Cluster χ) (term i j : Nat) : Set Nat :=
  { s | ∃ m, T.Sent (c.links i j) s m ∧ m.Appends term }

/-- Every node is up and fits the widths of the encoding, every link is open, and the links are at
tick `k`. -/
structure Connected (T : Channel.Timing χ delay) (cfg : ClusterConfig) (k : Nat) (c : Cluster χ) :
    Prop where
  regular : Regular cfg c
  up : ∀ i < cfg.n, ∃ n, c.nodes i = some n
  fits : ∀ i n, c.nodes i = some n → n.Encodable
  unblocked : ∀ i < cfg.n, ∀ j < cfg.n, c.blocked i j = false
  clock : ∀ i < cfg.n, ∀ j < cfg.n, i ≠ j → T.clock (c.links i j) = k

/-- `L` leads the term with heartbeats on every link that never were and, as its timer last ran at
tick `τ`, are not about to be an election timeout apart, unless it has moved on to a later term. -/
def Beating (T : Channel.Timing χ delay) (cfg : ClusterConfig) (term L start τ : Nat)
    (c : Cluster χ) : Prop :=
  ∃ n, c.nodes L = some n ∧ (term < n.term ∨ (n.term = term ∧ n.role = .leader ∧
    ∀ p < cfg.n, p ≠ L → Steady (heartbeats T c term L p) start
      (max n.heartbeatDeadline (τ + 1)) cfg.electionTimeout.1))

/-- Every other node heeds the heartbeats that arrived by tick `t`. -/
def Heeded (T : Channel.Timing χ delay) (cfg : ClusterConfig) (term L start t : Nat)
    (c : Cluster χ) : Prop :=
  ∀ p < cfg.n, p ≠ L → ∀ n, c.nodes p = some n → ∀ s ∈ heartbeats T c term L p, start ≤ s →
    s + delay ≤ t → n.Heeds term (s + delay + cfg.electionTimeout.1)

/-- Since `base` no node has moved, and nothing was sent, beyond the term. -/
structure Bounded (T : Channel.Timing χ delay) (base : Cluster χ) (term : Nat) (c : Cluster χ) :
    Prop where
  later : base.now ≤ c.now
  terms : ∀ i n, c.nodes i = some n → n.term ≤ term
  sends : ∀ i j, ∃ new, T.sends (c.links i j) = T.sends (base.links i j) ++ new ∧
    ∀ x ∈ new, ∃ m : Message, m.Encodable ∧ m.term ≤ term ∧
      x.2 = encodeMessage (Channel.frames χ) m

/-- The nodes, the open links and what was sent are the same. -/
structure SameTraffic (T : Channel.Timing χ delay) (c c' : Cluster χ) : Prop where
  nodes : c'.nodes = c.nodes
  sends : ∀ i j, T.sends (c'.links i j) = T.sends (c.links i j)

theorem SameTraffic.heartbeats (h : SameTraffic T c c') (i j : Nat) :
    heartbeats T c' term i j = heartbeats T c term i j := by
  simp only [Landsraad.heartbeats, Channel.Timing.Sent, h.sends]

theorem Beating.congr (h : Beating T cfg term L start τ c) (hs : SameTraffic T c c') :
    Beating T cfg term L start τ c' := by
  obtain ⟨n, hn, hcase⟩ := h
  refine ⟨n, by rw [hs.nodes, hn], ?_⟩
  simp only [hs.heartbeats]
  exact hcase

theorem Heeded.congr (h : Heeded T cfg term L start t c) (hs : SameTraffic T c c') :
    Heeded T cfg term L start t c' := by
  intro p hp hne n hn
  rw [hs.nodes] at hn
  simp only [hs.heartbeats]
  exact h p hp hne n hn

theorem Bounded.congr (h : Bounded T base term c) (hs : SameTraffic T c c')
    (hnow : c.now ≤ c'.now) : Bounded T base term c' where
  later := h.later.trans hnow
  terms i n hn := h.terms i n (by rwa [hs.nodes] at hn)
  sends i j := by
    rw [hs.sends]
    exact h.sends i j

section Call

variable {n n' : Node Disk} {out : List Outgoing} {answer : Option Nat}

theorem Routed.heartbeats_subset (h : Routed T (c.setNode i (some n')) i out c') (j p : Nat) :
    heartbeats T c term j p ⊆ heartbeats T c' term j p := by
  rintro s ⟨m, ⟨b, hb, hread⟩, happends⟩
  obtain ⟨new, hnew, _⟩ := h.sends j p
  exact ⟨m, ⟨b, by rw [hnew]; exact List.mem_append_left _ hb, hread⟩, happends⟩

theorem Routed.heartbeats_cases (h : Routed T (c.setNode i (some n')) i out c') {j p s : Nat}
    (hs : s ∈ heartbeats T c' term j p) :
    s ∈ heartbeats T c term j p ∨ s = T.clock (c.links j p) := by
  obtain ⟨m, ⟨b, hb, hread⟩, happends⟩ := hs
  obtain ⟨new, hnew, hsent⟩ := h.sends j p
  rw [hnew] at hb
  rcases List.mem_append.mp hb with hb | hb
  · exact .inl ⟨m, ⟨b, hb, hread⟩, happends⟩
  · exact .inr (hsent _ hb).1

theorem Connected.called (h : Connected T cfg k c) (hn : c.nodes i = some n)
    (hc : call.Encodable) (hs : c.serve (i, call) = some c') :
    ∃ n' out answer, n.call call = .ok (n', out, answer) ∧
      Routed T (c.setNode i (some n')) i out c' ∧ n'.Encodable ∧
      ∀ o ∈ out, o.message.Encodable := by
  obtain ⟨n', out, answer, hcall, hlen, hr⟩ := serve_routed (T := T) hn hs
  exact ⟨n', out, answer, hcall, hr, (h.fits i n hn).call hc hcall hlen⟩

theorem Connected.served (h : Connected T cfg k c) (hnow : call.now = c.now)
    (hc : call.Encodable) (hs : c.serve (i, call) = some c') : Connected T cfg k c' := by
  have hregular := h.regular.serve (a := (i, call)) hnow hs
  cases hn : c.nodes i with
  | none =>
    simp only [serve, hn] at hs
    cases hs
    exact h
  | some n =>
    obtain ⟨n', out, answer, _, hr, hfits, _⟩ := h.called hn hc hs
    refine ⟨hregular, fun j hj => ?_, fun j m hm => ?_, fun p hp q hq => ?_,
      fun p hp q hq hne => ?_⟩
    · by_cases hji : j = i
      · subst hji
        exact ⟨n', hr.node_self⟩
      · rw [hr.node_other hji]
        exact h.up j hj
    · rcases hr.node_cases hm with ⟨_, rfl⟩ | ⟨_, hm⟩
      · exact hfits
      · exact h.fits j m hm
    · rw [hr.blocked]
      exact h.unblocked p hp q hq
    · rw [hr.clock]
      exact h.clock p hp q hq hne

theorem Beating.mono {τ' : Nat} (h : Beating T cfg term L start τ c) (hle : τ' ≤ τ) :
    Beating T cfg term L start τ' c := by
  obtain ⟨n, hn, hcase⟩ := h
  refine ⟨n, hn, hcase.imp id fun ⟨hterm, hrole, hsteady⟩ => ⟨hterm, hrole, fun p hp hne => ?_⟩⟩
  exact (hsteady p hp hne).mono subset_rfl (by omega)

theorem Beating.served (h : Beating T cfg term L start τ c) (hn : c.nodes i = some n)
    (hcall : n.call call = .ok (n', out, answer)) (hnot : i = L → ∀ now, call ≠ .tick now)
    (hr : Routed T (c.setNode i (some n')) i out c') : Beating T cfg term L start τ c' := by
  obtain ⟨l, hl, hcase⟩ := h
  by_cases hi : i = L
  · subst hi
    rw [hn] at hl
    cases hl
    refine ⟨n', hr.node_self, ?_⟩
    rcases hcase with hlt | ⟨rfl, hrole, hsteady⟩
    · exact .inl (hlt.trans_le (Node.call_timed hcall).term_le)
    · refine (Node.call_reigns (hnot rfl) hrole hcall).imp id ?_
      rintro ⟨hterm, hrole', hsame⟩
      refine ⟨hterm, hrole', fun p hp hne => ?_⟩
      rw [hsame]
      exact (hsteady p hp hne).mono (hr.heartbeats_subset i p) le_rfl
  · refine ⟨l, by rw [hr.node_other (Ne.symm hi), hl], hcase.imp id ?_⟩
    rintro ⟨hterm, hrole, hsteady⟩
    exact ⟨hterm, hrole, fun p hp hne => (hsteady p hp hne).mono (hr.heartbeats_subset L p) le_rfl⟩

theorem Beating.ticked (h : Beating T cfg term L start τ c) (hconn : Connected T cfg t c)
    (hinterval : cfg.heartbeatInterval ≤ cfg.electionTimeout.1) (hstart : start ≤ t)
    (hτ : t ≤ τ + 1) (hn : c.nodes L = some n) (htick : n.tick t = .ok (n', out))
    (hframe : (Channel.frames χ).Faithful) (hfits : ∀ o ∈ out, o.message.Encodable)
    (hr : Routed T (c.setNode L (some n')) L out c') : Beating T cfg term L start t c' := by
  obtain ⟨l, hl, hcase⟩ := h
  rw [hn] at hl
  cases hl
  have hfit := hconn.regular.node L n hn
  have hpatient := hfit.patient
  refine ⟨n', hr.node_self, ?_⟩
  rcases hcase with hlt | ⟨hterm, hrole, hsteady⟩
  · exact .inl (hlt.trans_le (Node.tick_timed htick).term_le)
  right
  rcases Node.tick_leads hrole htick with ⟨hwait, rfl, _⟩ | ⟨hdue, rfl, hout⟩
  · refine ⟨hterm, hrole, fun p hp hne => ?_⟩
    exact (hsteady p hp hne).mono (hr.heartbeats_subset L p) (by omega)
  · refine ⟨hterm, hrole, fun p hp hne => ?_⟩
    have hbeat : t ∈ heartbeats T c' term L p := by
      have hpeer : p ∈ n.peers := Node.mem_peers.mpr ⟨hfit.size ▸ hp, hfit.id ▸ hne⟩
      obtain ⟨o, ho, rfl, happends⟩ := Node.broadcastAppend_beats hout p hpeer
      have hsent : (T.clock (c.links L o.recipient), encodeMessage (Channel.frames χ) o.message) ∈
          T.sends (c'.links L o.recipient) :=
        hr.reached o ho (hconn.unblocked L hfit.lt o.recipient hp)
      rw [hconn.clock L hfit.lt o.recipient hp (Ne.symm hne)] at hsent
      exact ⟨o.message, ⟨_, hsent, read_encode hframe (hfits o ho)⟩, hterm ▸ happends⟩
    have hold : Steady (heartbeats T c term L p) start t cfg.electionTimeout.1 :=
      (hsteady p hp hne).mono subset_rfl (by omega)
    refine hold.beat (hr.heartbeats_subset L p) hbeat hstart ?_
    dsimp only
    rw [hfit.interval]
    omega

theorem heeds_served {p due : Nat} {m : Node Disk} (hconn : Connected T cfg k c)
    (hnow : call.now = c.now) (hs : c.serve (i, call) = some c')
    (hdue : due ≤ c.now + cfg.electionTimeout.1)
    (h : ∀ n, c.nodes p = some n → n.Heeds term due) (hm : c'.nodes p = some m) :
    m.Heeds term due := by
  cases hn : c.nodes i with
  | none =>
    simp only [serve, hn] at hs
    cases hs
    exact h m hm
  | some n =>
    obtain ⟨n', out, answer, hcall, _, hr⟩ := serve_routed (T := T) hn hs
    rcases hr.node_cases hm with ⟨rfl, rfl⟩ | ⟨_, hm⟩
    · refine (h n hn).timed (Node.call_timed hcall) ?_
      rw [(hconn.regular.node p n hn).timeout, hnow]
      exact hdue
    · exact h m hm

theorem Heeded.served (h : Heeded T cfg term L start t c) (hconn : Connected T cfg k c)
    (hk : t < k + delay) (ht : t ≤ c.now) (hnow : call.now = c.now) (hL : L < cfg.n)
    (hs : c.serve (i, call) = some c')
    (hr : Routed T (c.setNode i (some n')) i out c') : Heeded T cfg term L start t c' := by
  intro p hp hne m hm s hbeat hstart hle
  have hbeat : s ∈ heartbeats T c term L p := by
    rcases hr.heartbeats_cases hbeat with hold | rfl
    · exact hold
    · rw [hconn.clock L hL p hp (Ne.symm hne)] at hle
      omega
  exact heeds_served hconn hnow hs (by omega)
    (fun n hn => h p hp hne n hn s hbeat hstart hle) hm

theorem Bounded.served (h : Bounded T base term c) (hterm : n'.term ≤ term)
    (hcall : n.call call = .ok (n', out, answer)) (hfits : ∀ o ∈ out, o.message.Encodable)
    (hr : Routed T (c.setNode i (some n')) i out c') : Bounded T base term c' where
  later := by
    rw [hr.now]
    exact h.later
  terms j m hm := by
    rcases hr.node_cases hm with ⟨_, rfl⟩ | ⟨_, hm⟩
    · exact hterm
    · exact h.terms j m hm
  sends p q := by
    obtain ⟨new, hnew, hbound⟩ := h.sends p q
    obtain ⟨new', hnew', hsent⟩ := hr.sends p q
    refine ⟨new ++ new', ?_, fun x hx => ?_⟩
    · rw [hnew', ← List.append_assoc, ← hnew]
      rfl
    · rcases List.mem_append.mp hx with hx | hx
      · exact hbound x hx
      · obtain ⟨_, _, m, ho, hbytes⟩ := hsent x hx
        have hout : m.term = n'.term := (Node.call_timed hcall).sends _ ho
        exact ⟨m, hfits _ ho, hout.trans_le hterm, hbytes⟩

end Call

/-! ## Calls of a step -/

/-- A heartbeat of the tick `start` has arrived in `base`, and no message beyond the term is on its
way. -/
structure Settled (T : Channel.Timing χ delay) (cfg : ClusterConfig) (base : Cluster χ)
    (term start : Nat) : Prop where
  heard : start + delay ≤ base.now
  flight : ∀ i < cfg.n, ∀ j < cfg.n, i ≠ j → ∀ stamp m, T.Sent (base.links i j) stamp m →
    base.now < stamp + delay → m.term ≤ term

/-- All of it at once: the links at tick `k`, the timer of `L` last run at `τ`, and the arrivals
up to tick `t` heeded. The bound on terms is kept from `base` on, where that is `settled`. -/
structure Steadied (T : Channel.Timing χ delay) (cfg : ClusterConfig) (base : Cluster χ)
    (settled : Prop) (term L start k τ t : Nat) (c : Cluster χ) : Prop where
  since : start ≤ t
  connected : Connected T cfg k c
  beating : Beating T cfg term L start τ c
  heeded : Heeded T cfg term L start t c
  bounded : settled → Bounded T base term c

variable {settled : Prop}

theorem Steadied.request (h : Steadied T cfg base settled term L start k τ t c)
    (hL : L < cfg.n) (hk : t < k + delay) (ht : t ≤ c.now) (hnow : call.now = c.now)
    (hnot : ∀ now, call ≠ .tick now) (hc : call.Encodable)
    (hterm : settled → call.Within term)
    (hs : c.serve (i, call) = some c') : Steadied T cfg base settled term L start k τ t c' := by
  cases hn : c.nodes i with
  | none =>
    simp only [serve, hn] at hs
    cases hs
    exact h
  | some n =>
    obtain ⟨n', out, answer, hcall, hr, _, hfits⟩ := h.connected.called hn hc hs
    refine ⟨h.since, h.connected.served hnow hc hs, h.beating.served hn hcall (fun _ => hnot) hr,
      h.heeded.served h.connected hk ht hnow hL hs hr, fun hq => ?_⟩
    have hb := h.bounded hq
    exact hb.served (Node.call_term_le (hterm hq) (hb.terms i n hn) hcall) hcall hfits hr

theorem Steadied.leads (h : Steadied T cfg base settled term L start k τ t c) (hq : settled)
    {n : Node Disk} (hn : c.nodes L = some n) : n.term = term ∧ n.role = .leader := by
  obtain ⟨l, hl, hcase⟩ := h.beating
  obtain rfl : n = l := Option.some.inj (hn.symm.trans hl)
  rcases hcase with hlt | ⟨hterm, hrole, _⟩
  · exact absurd hlt (Nat.not_lt.mpr ((h.bounded hq).terms L n hl))
  · exact ⟨hterm, hrole⟩

/-- No election is due at a node that has heard of `L` in time. -/
theorem Steadied.waits (h : Steadied T cfg base settled term L start t τ t c) (hd : 0 < delay)
    (hτ : t ≤ τ + 1) (hq : settled) (hbase : start + delay ≤ t) (hi : i < cfg.n) (hne : i ≠ L)
    {n : Node Disk} (hn : c.nodes i = some n) :
    n.term = term ∧ n.role = .follower ∧ t < n.electionDeadline := by
  obtain ⟨l, hl, hcase⟩ := h.beating
  have hb := h.bounded hq
  rcases hcase with hlt | ⟨_, _, hsteady⟩
  · exact absurd hlt (Nat.not_lt.mpr (hb.terms L l hl))
  obtain ⟨s, hs, hstart, harrived, hrecent⟩ :=
    (hsteady i hi hne).noticed hbase (show t < max l.heartbeatDeadline (τ + 1) + delay by omega)
  rcases h.heeded i hi hne n hn s hs hstart harrived with hlt | ⟨hterm, hrole, hdue⟩
  · exact absurd hlt (Nat.not_lt.mpr (hb.terms i n hn))
  · exact ⟨hterm, hrole, hrecent.trans_le hdue⟩

theorem Steadied.tick (h : Steadied T cfg base settled term L start t τ t c) (hd : 0 < delay)
    (hinterval : cfg.heartbeatInterval ≤ cfg.electionTimeout.1) (hL : L < cfg.n)
    (hτ : t ≤ τ + 1) (hle : τ ≤ t) (hsettled : settled → Settled T cfg base term start)
    (hnow : c.now = t) (hframe : (Channel.frames χ).Faithful)
    (hs : c.serve (i, .tick t) = some c') :
    Steadied T cfg base settled term L start t τ t c' ∧
      (i = L → Beating T cfg term L start t c') := by
  have hclock : (Call.tick t).now = c.now := hnow.symm
  have hc : (Call.tick t).Encodable := trivial
  cases hn : c.nodes i with
  | none =>
    simp only [serve, hn] at hs
    cases hs
    refine ⟨h, fun hi => ?_⟩
    subst hi
    obtain ⟨n, hup⟩ := h.connected.up i hL
    rw [hn] at hup
    cases hup
  | some n =>
    obtain ⟨n', out, answer, hcall, hr, _, hfits⟩ := h.connected.called hn hc hs
    obtain ⟨htick, rfl⟩ := Node.call_tick_ok hcall
    have hbeat : i = L → Beating T cfg term L start t c' := by
      rintro rfl
      exact h.beating.ticked h.connected hinterval h.since hτ hn htick hframe hfits hr
    refine ⟨⟨h.since, h.connected.served hclock hc hs, ?_, ?_, fun hq => ?_⟩, hbeat⟩
    · by_cases hi : i = L
      · exact (hbeat hi).mono hle
      · exact h.beating.served hn hcall (fun he => absurd he hi) hr
    · exact h.heeded.served h.connected (by omega) hnow.ge hclock hL hs hr
    · -- the timer of `L` keeps the term, and no other timer fires
      have hb := h.bounded hq
      refine hb.served ?_ hcall hfits hr
      by_cases hi : i = L
      · subst hi
        obtain ⟨hterm, hrole⟩ := h.leads hq hn
        rcases Node.tick_leads hrole htick with ⟨_, rfl, _⟩ | ⟨_, rfl, _⟩ <;> exact hterm.le
      · have hfit := h.connected.regular.node i n hn
        have hheard : start + delay ≤ t := (hsettled hq).heard.trans (hb.later.trans hnow.le)
        obtain ⟨hterm, hrole, hdue⟩ := h.waits hd hτ hq hheard hfit.lt hi hn
        obtain ⟨rfl, _⟩ := Node.tick_waits hrole hdue htick
        exact hterm.le

/-! ## A step -/

theorem Connected.alike (h : Connected T cfg k c) (ha : Alike c c') : Connected T cfg k c' := by
  refine ⟨h.regular.alike ha, ?_, ?_, ?_, ?_⟩
  · rw [ha.nodes]
    exact h.up
  · rw [ha.nodes]
    exact h.fits
  · rw [ha.blocked]
    exact h.unblocked
  · rw [ha.links]
    exact h.clock

theorem Alike.traffic (h : Alike c c') : SameTraffic T c c' where
  nodes := h.nodes
  sends i j := by rw [h.links]

theorem Connected.later (h : Connected T cfg k c) :
    Connected T cfg k { c with now := c.now + 1 } where
  regular := h.regular.of_le ⟨rfl, rfl, rfl⟩ (fun _ _ hn => hn) (Nat.le_succ c.now)
    (h.regular.count.trans (Nat.le_succ c.now))
  up := h.up
  fits := h.fits
  unblocked := h.unblocked
  clock := h.clock

theorem Connected.recount (h : Connected T cfg k c) {count : UInt64}
    (hcount : count.toNat ≤ c.now) : Connected T cfg k { c with nextCommand := count } where
  regular := h.regular.of_le ⟨rfl, rfl, rfl⟩ (fun _ _ hn => hn) le_rfl hcount
  up := h.up
  fits := h.fits
  unblocked := h.unblocked
  clock := h.clock

theorem Connected.network {f : Faults} {d : Draws} (h : Connected T cfg k c)
    (hf : (f.partition && d.partition) = false) : Connected T cfg k (c.network f d) := by
  simp only [Cluster.network, hf]
  split
  · exact ⟨h.regular.of_le ⟨rfl, rfl, rfl⟩ (fun _ _ hn => hn) le_rfl h.regular.count, h.up, h.fits,
      fun _ _ _ _ => rfl, h.clock⟩
  · exact h

theorem network_traffic (c : Cluster χ) (f : Faults) (d : Draws) :
    SameTraffic T c (c.network f d) := by
  unfold Cluster.network
  dsimp only
  split <;> split <;> exact ⟨rfl, fun _ _ => rfl⟩

/-- What is steadied depends on the nodes and on what was sent. -/
theorem Steadied.congr {k' : Nat} (h : Steadied T cfg base settled term L start k τ t c)
    (hconn : Connected T cfg k' c') (hs : SameTraffic T c c') (hnow : c.now ≤ c'.now) :
    Steadied T cfg base settled term L start k' τ t c' :=
  ⟨h.since, hconn, h.beating.congr hs, h.heeded.congr hs, fun hq => (h.bounded hq).congr hs hnow⟩

theorem Steadied.alike (h : Steadied T cfg base settled term L start k τ t c) (ha : Alike c c') :
    Steadied T cfg base settled term L start k τ t c' :=
  h.congr (h.connected.alike ha) ha.traffic ha.now.ge

theorem advanceLinks_traffic (c : Cluster χ) : SameTraffic T c c.advanceLinks.1 where
  nodes := rfl
  sends i j := by
    dsimp only [advanceLinks]
    split
    · exact T.sends_advance _ _
    · rfl

theorem Connected.advanceLinks (h : Connected T cfg k c) :
    Connected T cfg c.now c.advanceLinks.1 where
  regular := h.regular.of_le ⟨rfl, rfl, rfl⟩ (fun _ _ hn => hn) le_rfl h.regular.count
  up := h.up
  fits := h.fits
  unblocked := h.unblocked
  clock i hi j hj hne := by
    dsimp only [Cluster.advanceLinks]
    rw [if_pos ⟨h.regular.size ▸ hi, h.regular.size ▸ hj, hne⟩, T.clock_advance]

theorem Steadied.advanceLinks (h : Steadied T cfg base settled term L start k τ t c) :
    Steadied T cfg base settled term L start c.now τ t c.advanceLinks.1 :=
  h.congr h.connected.advanceLinks (advanceLinks_traffic c) le_rfl

section Deliver

variable {arrivals : List (Nat × Nat × List UInt8)} {a : Nat × Call}

theorem Steadied.arrival (h : Steadied T cfg base settled term L start (k + 1) k k c)
    (hnow : c.now = k + 1) (hd : 0 < delay) (hL : L < cfg.n)
    (hwithin : settled → ∀ i j m, (i, j, m) ∈ heard χ arrivals → m.term ≤ term)
    (ha : a ∈ received χ (k + 1) arrivals) (hs : c.serve a = some c') :
    Steadied T cfg base settled term L start (k + 1) k k c' := by
  obtain ⟨j, call⟩ := a
  obtain ⟨i, m, hmem, rfl⟩ := mem_received.mp ha
  have hclock : (Call.handle (k + 1) i m).now = c.now := hnow.symm
  have hbound : settled → (Call.handle (k + 1) i m).Within term :=
    fun hq => hwithin hq i j m hmem
  obtain ⟨b, _, hread⟩ := mem_heard.mp hmem
  exact h.request hL (by omega) (by omega) hclock (by simp) (encodable_of_read hread) hbound hs

theorem Connected.heeds {p : Nat} {m : Message} {n : Node Disk} (h : Connected T cfg k c)
    (hp : p < cfg.n) (hL : L < cfg.n) (hne : p ≠ L) (happends : m.Appends term)
    (hs : c.serve (p, .handle t L m) = some c') (hn : c'.nodes p = some n) :
    n.Heeds term (t + cfg.electionTimeout.1) := by
  obtain ⟨n₀, hn₀⟩ := h.up p hp
  have hfit := h.regular.node p n₀ hn₀
  obtain ⟨n₁, out, answer, hcall, _, hr⟩ := serve_routed (T := T) hn₀ hs
  obtain ⟨hhandle, rfl⟩ := Node.call_handle_ok hcall
  rw [hr.node_self] at hn
  cases hn
  have hpeer : L ∈ n₀.peers := Node.mem_peers.mpr ⟨hfit.size ▸ hL, hfit.id ▸ Ne.symm hne⟩
  rw [← hfit.timeout]
  exact Node.handle_heeds happends hpeer hhandle

theorem Steadied.deliver {f : Faults} {d : Draws}
    (h : Steadied T cfg base settled term L start (k + 1) k k c) (hnow : c.now = k + 1)
    (hd : 0 < delay) (hL : L < cfg.n)
    (hwithin : settled → ∀ i j m, (i, j, m) ∈ heard χ arrivals → m.term ≤ term)
    (hcome : ∀ p < cfg.n, p ≠ L → ∀ s ∈ heartbeats T c term L p, s + delay = k + 1 →
      ∃ m, m.Appends term ∧ (L, p, m) ∈ heard χ arrivals)
    (hcalm : Uneventful f d) (hdeliver : deliver f d 0 arrivals c = .ok c') :
    c'.now = k + 1 ∧ Steadied T cfg base settled term L start (k + 1) k (k + 1) c' := by
  have hrun := deliver_serves hcalm hdeliver
  rw [hnow] at hrun
  let P := fun x : Cluster χ =>
    x.now = k + 1 ∧ Steadied T cfg base settled term L start (k + 1) k k x
  have hkeep : ∀ x x' a, a ∈ received χ (k + 1) arrivals → P x → x.serve a = some x' →
      P x' := fun x x' a ha hx hserve =>
    ⟨(serve_now hserve).trans hx.1, hx.2.arrival hx.1 hd hL hwithin ha hserve⟩
  obtain ⟨hnow', h'⟩ : P c' := exec_induction ⟨hnow, h⟩ hkeep hrun
  refine ⟨hnow', h.since.trans (Nat.le_succ k), h'.connected, h'.beating, ?_, h'.bounded⟩
  intro p hp hne n hn s hbeat hstart hle
  rcases Nat.lt_or_eq_of_le hle with hlt | heq
  · exact h'.heeded p hp hne n hn s hbeat hstart (by omega)
  have hbeat : s ∈ heartbeats T c term L p := by
    have hgrows : Grows T c c' := deliver_grows hdeliver
    have hclock := h.connected.clock L hL p hp (Ne.symm hne)
    obtain ⟨_, new, hnew, hstamp⟩ := hgrows.links L p (hclock.trans hnow.symm)
    obtain ⟨m, ⟨b, hb, hread⟩, happends⟩ := hbeat
    rw [hnew] at hb
    rcases List.mem_append.mp hb with hb | hb
    · exact ⟨m, ⟨b, hb, hread⟩, happends⟩
    · have hlate : s = c.now := hstamp _ hb
      omega
  obtain ⟨m, happends, hmem⟩ := hcome p hp hne s hbeat heq
  let Q := fun x : Cluster χ =>
    ∀ n, x.nodes p = some n → n.Heeds term (k + 1 + cfg.electionTimeout.1)
  have hreach : ∀ x x', P x → x.serve (p, .handle (k + 1) L m) = some x' → Q x' :=
    fun x x' hx hserve n hn => hx.2.connected.heeds hp hL hne happends hserve hn
  have hstay : ∀ x x' a, a ∈ received χ (k + 1) arrivals → P x → Q x →
      x.serve a = some x' → Q x' := by
    rintro x x' ⟨j, call⟩ ha ⟨hn, hx⟩ hq hserve n hn'
    obtain ⟨i, m', _, rfl⟩ := mem_received.mp ha
    have hclock : (Call.handle (k + 1) i m').now = x.now := hn.symm
    exact heeds_served hx.connected hclock hserve (by omega) hq hn'
  rw [heq]
  exact exec_reaches (P := P) (Q := Q) (mem_received.mpr ⟨L, m, hmem, rfl⟩) ⟨hnow, h⟩ hkeep
    hreach hstay hrun n hn

end Deliver

theorem Steadied.timers (h : Steadied T cfg base settled term L start (k + 1) k (k + 1) c)
    (hnow : c.now = k + 1) (hd : 0 < delay) (hL : L < cfg.n)
    (hinterval : cfg.heartbeatInterval ≤ cfg.electionTimeout.1)
    (hsettled : settled → Settled T cfg base term start) (hframe : (Channel.frames χ).Faithful)
    (htimers : timers (List.range cfg.n) c = .ok c') :
    c'.now = k + 1 ∧ Steadied T cfg base settled term L start (k + 1) (k + 1) (k + 1) c' := by
  have hrun := timers_serves htimers
  rw [hnow] at hrun
  let P := fun x : Cluster χ =>
    x.now = k + 1 ∧ Steadied T cfg base settled term L start (k + 1) k (k + 1) x
  let Q := fun x : Cluster χ => Beating T cfg term L start (k + 1) x
  have hkeep : ∀ x x' a, a ∈ (List.range cfg.n).map (fun i => (i, Call.tick (k + 1))) → P x →
      x.serve a = some x' → P x' := by
    rintro x x' a ha ⟨hn, hx⟩ hserve
    obtain ⟨i, _, rfl⟩ := List.mem_map.mp ha
    exact ⟨(serve_now hserve).trans hn,
      (hx.tick hd hinterval hL le_rfl (Nat.le_succ k) hsettled hn hframe hserve).1⟩
  have hreach : ∀ x x', P x → x.serve (L, .tick (k + 1)) = some x' → Q x' := by
    rintro x x' ⟨hn, hx⟩ hserve
    exact (hx.tick hd hinterval hL le_rfl (Nat.le_succ k) hsettled hn hframe hserve).2 rfl
  have hstay : ∀ x x' a, a ∈ (List.range cfg.n).map (fun i => (i, Call.tick (k + 1))) → P x →
      Q x → x.serve a = some x' → Q x' := by
    rintro x x' a ha ⟨hn, hx⟩ hq hserve
    obtain ⟨i, _, rfl⟩ := List.mem_map.mp ha
    have hlate : Steadied T cfg base settled term L start (k + 1) (k + 1) (k + 1) x :=
      ⟨hx.since, hx.connected, hq, hx.heeded, hx.bounded⟩
    exact (hlate.tick hd hinterval hL (Nat.le_succ _) le_rfl hsettled hn hframe hserve).1.beating
  have hin : (L, Call.tick (k + 1)) ∈ (List.range cfg.n).map (fun i => (i, Call.tick (k + 1))) :=
    List.mem_map.mpr ⟨L, List.mem_range.mpr hL, rfl⟩
  obtain ⟨hn', h'⟩ : P c' := exec_induction ⟨hnow, h⟩ hkeep hrun
  have hbeat : Q c' := exec_reaches (P := P) (Q := Q) hin ⟨hnow, h⟩ hkeep hreach hstay hrun
  exact ⟨hn', h'.since, h'.connected, hbeat, h'.heeded, h'.bounded⟩

theorem Steadied.network {f : Faults} {d : Draws}
    (h : Steadied T cfg base settled term L start k τ t c)
    (hf : (f.partition && d.partition) = false) :
    Steadied T cfg base settled term L start k τ t (c.network f d) :=
  h.congr (h.connected.network hf) (network_traffic c f d) (network_unrouted c f d).now.ge

theorem Connected.injectCrashes {f : Faults} {d : Draws} {r : Except Violation Unit}
    (h : Connected T cfg k c) (hf : (f.crash && d.crash) = false)
    (hr : c.injectCrashes f d = .ok (c', r)) : c' = c := by
  simp only [Cluster.injectCrashes, hf] at hr
  obtain ⟨_, hc, hr⟩ := Checked.bind_eq_ok.mp hr
  cases hc
  split at hr
  · obtain ⟨i, hi, hr⟩ := Checked.bind_eq_ok.mp hr
    unfold below at hi
    split at hi
    · cases hi
    · next hn =>
      cases hi
      have hlt : d.restarted % c.cfg.n < cfg.n := by
        rw [← h.regular.size]
        exact Nat.mod_lt _ (Nat.pos_of_ne_zero hn)
      obtain ⟨n, hup⟩ := h.up _ hlt
      simp only [Cluster.restart, hup] at hr
      cases hr
      rfl
  · cases hr
    rfl

theorem Steadied.propose {command : List UInt8} {r : Except ProposeError (Nat × Nat)}
    (h : Steadied T cfg base settled term L start k τ t c) (hL : L < cfg.n) (hk : t < k + delay)
    (ht : t ≤ c.now) (hsized : command.length < UInt32.size)
    (hp : c.propose command = .ok (c', r)) :
    c'.now = c.now ∧ Steadied T cfg base settled term L start k τ t c' := by
  rcases propose_serves hp with rfl | ⟨l, n, _, _, hs⟩
  · exact ⟨rfl, h⟩
  · have hclock : (Call.propose c.now command).now = c.now := rfl
    exact ⟨serve_now hs, h.request hL hk ht hclock (by simp) hsized (fun _ => trivial) hs⟩

theorem Steadied.injected {d : Draws} {r : Except Violation Unit}
    (h : Steadied T cfg base settled term L start c.now c.now c.now c) (hL : L < cfg.n)
    (hd : 0 < delay) (hu : c.Undisturbed (.step d)) (hi : c.injected d = .ok (c', r)) :
    c'.now = c.now + 1 ∧ Steadied T cfg base settled term L start c.now c.now c.now c' := by
  obtain ⟨hcrash, hpartition, _⟩ := hu
  obtain ⟨now, hnow, hi⟩ := Checked.bind_eq_ok.mp hi
  obtain ⟨_, rfl⟩ := Checked.add_eq_ok.mp hnow
  obtain ⟨⟨c₁, r₁⟩, hcrashes, hi⟩ := Checked.bind_eq_ok.mp hi
  have hlater : Steadied T cfg base settled term L start c.now c.now c.now
      { c with now := c.now + 1 } :=
    h.congr h.connected.later ⟨rfl, fun _ _ => rfl⟩ (Nat.le_succ c.now)
  obtain rfl := hlater.connected.injectCrashes hcrash hcrashes
  cases r₁ with
  | error v =>
    cases hi
    exact ⟨rfl, hlater⟩
  | ok u =>
    obtain ⟨c₂, hrest, hi⟩ := Checked.bind_eq_ok.mp hi
    cases hi
    have hnetwork := network_unrouted { c with now := c.now + 1 } c.cfg.faults d
    have hsame := hlater.network hpartition
    rcases injectRest_cases hrest with ⟨_, rfl⟩ | ⟨_, command, c₁, r₁, count, hsized, hle, hp, rfl⟩
    · exact ⟨hnetwork.now, hsame⟩
    · have hclock : c.now ≤ (Cluster.network { c with now := c.now + 1 } c.cfg.faults d).now := by
        rw [hnetwork.now]
        exact Nat.le_succ c.now
      obtain ⟨hnow', hproposed⟩ := hsame.propose hL (by omega) hclock hsized hp
      have hlater' : c₁.now = c.now + 1 := hnow'.trans hnetwork.now
      have hcount : count.toNat ≤ c₁.now := by
        rw [(propose_clocks hp).2, hnetwork.count] at hle
        rw [hlater']
        exact hle.trans (Nat.succ_le_succ h.connected.regular.count)
      exact ⟨hlater', hproposed.congr (hproposed.connected.recount hcount) ⟨rfl, fun _ _ => rfl⟩
        le_rfl⟩

/-- Exactly what was sent a delay ago arrives. -/
theorem mem_heard_advance {F : Channel.FixedDelay χ delay} {size j : Nat} {m : Message}
    (hsize : c.cfg.n = size)
    (hclock : ∀ i < size, ∀ j < size, i ≠ j → F.clock (c.links i j) = k) (hnow : c.now = k + 1) :
    (i, j, m) ∈ heard χ c.advanceLinks.2 ↔ i < size ∧ j < size ∧ i ≠ j ∧
      ∃ stamp, F.Sent (c.links i j) stamp m ∧ stamp + delay = k + 1 := by
  have hadvance : ∀ b, (i, j, b) ∈ c.advanceLinks.2 ↔ i < size ∧ j < size ∧ i ≠ j ∧
      ∃ stamp, (stamp, b) ∈ F.sends (c.links i j) ∧ stamp + delay = k + 1 := by
    intro b
    rw [mem_advanceLinks, hsize]
    refine and_congr_right fun hi => and_congr_right fun hj => and_congr_right fun hne => ?_
    rw [hnow, ← hclock i hi j hj hne]
    exact F.arrives_iff
  rw [mem_heard]
  constructor
  · rintro ⟨b, hb, hread⟩
    obtain ⟨hi, hj, hne, stamp, hsent, hdue⟩ := (hadvance b).mp hb
    exact ⟨hi, hj, hne, stamp, ⟨b, hsent, hread⟩, hdue⟩
  · rintro ⟨hi, hj, hne, stamp, ⟨b, hsent, hread⟩, hdue⟩
    exact ⟨b, (hadvance b).mpr ⟨hi, hj, hne, stamp, hsent, hdue⟩, hread⟩

theorem Connected.arrives {F : Channel.FixedDelay χ delay} {j : Nat} {m : Message}
    (h : Connected F.toTiming cfg k c) (hnow : c.now = k + 1) :
    (i, j, m) ∈ heard χ c.advanceLinks.2 ↔ i < cfg.n ∧ j < cfg.n ∧ i ≠ j ∧
      ∃ stamp, F.Sent (c.links i j) stamp m ∧ stamp + delay = k + 1 :=
  mem_heard_advance h.regular.size h.clock hnow

theorem Steadied.within {F : Channel.FixedDelay χ delay} {j : Nat} {m : Message}
    (h : Steadied F.toTiming cfg base settled term L start k τ t c) (hnow : c.now = k + 1)
    (hq : settled) (hsettled : Settled F.toTiming cfg base term start) (hk : base.now ≤ k)
    (hm : (i, j, m) ∈ heard χ c.advanceLinks.2) : m.term ≤ term := by
  obtain ⟨hi, hj, hne, stamp, ⟨b, hsent, hread⟩, hdue⟩ := (h.connected.arrives hnow).mp hm
  obtain ⟨new, hnew, hbound⟩ := (h.bounded hq).sends i j
  rw [hnew] at hsent
  rcases List.mem_append.mp hsent with hold | hnew
  · exact hsettled.flight i hi j hj hne stamp m ⟨b, hold, hread⟩ (by omega)
  · obtain ⟨m', hfits, hterm, hbytes⟩ := hbound _ hnew
    have hbytes : b = encodeMessage (Channel.frames χ) m' := hbytes
    rw [hbytes, read_encode F.frames hfits] at hread
    cases hread
    exact hterm

/-- Over links of a fixed delay the arrivals of a tick bring every heartbeat in time. -/
theorem Steadied.delivered {F : Channel.FixedDelay χ delay} {f : Faults} {d : Draws}
    (h : Steadied F.toTiming cfg base settled term L start k k k c) (hnow : c.now = k + 1)
    (hL : L < cfg.n) (hsettled : settled → Settled F.toTiming cfg base term start)
    (hk : settled → base.now ≤ k) (hcalm : Uneventful f d)
    (hdeliver : Cluster.deliver f d 0 c.advanceLinks.2 c.advanceLinks.1 = .ok c') :
    c'.now = k + 1 ∧ Steadied F.toTiming cfg base settled term L start (k + 1) k (k + 1) c' := by
  have hadvanced := h.advanceLinks
  rw [hnow] at hadvanced
  have hwithin : settled → ∀ i j m, (i, j, m) ∈ heard χ c.advanceLinks.2 → m.term ≤ term :=
    fun hq i j m hm => h.within hnow hq (hsettled hq) (hk hq) hm
  refine hadvanced.deliver hnow F.delay_pos hL hwithin ?_ hcalm hdeliver
  intro p hp hne s hbeat hdue
  rw [(advanceLinks_traffic c).heartbeats] at hbeat
  obtain ⟨m, hm, happends⟩ := hbeat
  exact ⟨m, happends, (h.connected.arrives hnow).mpr ⟨hL, hp, Ne.symm hne, s, hm, hdue⟩⟩

theorem Steadied.exchange {F : Channel.FixedDelay χ delay} {f : Faults} {d : Draws}
    (h : Steadied F.toTiming cfg base settled term L start k k k c) (hnow : c.now = k + 1)
    (hL : L < cfg.n) (hinterval : cfg.heartbeatInterval ≤ cfg.electionTimeout.1)
    (hsettled : settled → Settled F.toTiming cfg base term start)
    (hk : settled → base.now ≤ k) (hcalm : Uneventful f d) (he : c.exchange f d = .ok c') :
    c'.now = k + 1 ∧
      Steadied F.toTiming cfg base settled term L start (k + 1) (k + 1) (k + 1) c' := by
  obtain ⟨c₁, hdeliver, htimers⟩ := Checked.bind_eq_ok.mp he
  obtain ⟨hnow₁, h₁⟩ := h.delivered hnow hL hsettled hk hcalm hdeliver
  rw [h₁.connected.regular.size] at htimers
  exact h₁.timers hnow₁ F.delay_pos hL hinterval hsettled F.frames htimers

theorem Steadied.next {F : Channel.FixedDelay χ delay} {op : Op}
    (h : Steadied F.toTiming cfg base settled term L start c.now c.now c.now c)
    (hrun : Running F.toTiming cfg.n c) (hL : L < cfg.n)
    (hinterval : cfg.heartbeatInterval ≤ cfg.electionTimeout.1)
    (hsettled : settled → Settled F.toTiming cfg base term start)
    (hu : c.Undisturbed op) (hsized : op.Sized) (hn : c.next op = some c') :
    Steadied F.toTiming cfg base settled term L start c'.now c'.now c'.now c' := by
  obtain ⟨r, hr⟩ := next_eq_some hn
  cases op with
  | step d =>
    obtain ⟨c₁, c₂, hinjected, hexchange, halike⟩ :=
      step_exchanges (hrun.advances F.faithful (.step d)) hr
    obtain ⟨hnow₁, h₁⟩ := h.injected hL F.delay_pos hu hinjected
    have hk : settled → base.now ≤ c.now := fun hq => (h.bounded hq).later
    obtain ⟨hnow₂, h₂⟩ := h₁.exchange hnow₁ hL hinterval hsettled hk hu.2.2 hexchange
    rw [halike.now, hnow₂]
    exact h₂.alike halike
  | propose command =>
    obtain ⟨⟨c₁, answer⟩, hp, hr⟩ := Checked.bind_eq_ok.mp hr
    cases hr
    have hd := F.delay_pos
    obtain ⟨hnow, h'⟩ := h.propose hL (by omega) le_rfl hsized hp
    rw [hnow]
    exact h'
  | _ => exact hu.elim

/-! ## Runs -/

/-- Node `i` has the role in the term. -/
def Cluster.InRole {χ : Type} (c : Cluster χ) (i term : Nat) (role : Role) : Prop :=
  ∃ n, c.nodes i = some n ∧ n.term = term ∧ n.role = role

instance Cluster.instDecidableInRole {χ : Type} (c : Cluster χ) (i term : Nat) (role : Role) :
    Decidable (c.InRole i term role) :=
  decidable_of_iff ((c.nodes i).any fun n => decide (n.term = term ∧ n.role = role))
    (by simp [InRole, Option.any_eq_true])

/-- Leader `L` of the term broadcast a heartbeat at the tick of `c₁`. A delay later, in `c`, when
the other nodes have handled it, all nodes are in the term and no message beyond it is on its
way. -/
structure HeartbeatRound (F : Channel.FixedDelay χ delay) (cfg : ClusterConfig) (L term : Nat)
    (c₁ c : Cluster χ) : Prop where
  up : ∀ i < cfg.n, ∃ n, c₁.nodes i = some n
  unblocked : ∀ i < cfg.n, ∀ j < cfg.n, c₁.blocked i j = false
  led : c₁.InRole L term .leader
  broadcast : ∀ p < cfg.n, p ≠ L → ∃ m, F.Sent (c₁.links L p) c₁.now m ∧ m.Appends term
  elapsed : c.now = c₁.now + delay
  leads : c.InRole L term .leader
  others : ∀ p < cfg.n, p ≠ L → ∃ n, c.nodes p = some n ∧ n.term = term
  flight : ∀ i < cfg.n, ∀ j < cfg.n, i ≠ j → ∀ stamp m, F.Sent (c.links i j) stamp m →
    c.now < stamp + delay → m.term ≤ term

variable {F : Channel.FixedDelay χ delay} {c₁ : Cluster χ} {ops : List Op}

theorem exec_steadied (h : Steadied F.toTiming cfg base settled term L start c.now c.now c.now c)
    (hrun : Running F.toTiming cfg.n c) (hL : L < cfg.n)
    (hinterval : cfg.heartbeatInterval ≤ cfg.electionTimeout.1)
    (hsettled : settled → Settled F.toTiming cfg base term start)
    (hu : Throughout next Undisturbed c ops) (hsized : ∀ op ∈ ops, op.Sized)
    (hexec : exec next c ops = some c') :
    Running F.toTiming cfg.n c' ∧
      Steadied F.toTiming cfg base settled term L start c'.now c'.now c'.now c' := by
  have hboth : Throughout next (fun x op => x.Undisturbed op ∧ op.Sized) c ops :=
    fun ys op hpre x hx => ⟨hu ys op hpre x hx, hsized op (hpre.subset (by simp))⟩
  have hall := hboth.always (I := fun x => Running F.toTiming cfg.n x ∧
    Steadied F.toTiming cfg base settled term L start x.now x.now x.now x) ⟨hrun, h⟩
    fun x x' op hx hop hn => ⟨hx.1.kept F.faithful hop.2 hn,
      hx.2.next hx.1 hL hinterval hsettled hop.1 hop.2 hn⟩
  exact hall ops List.prefix_rfl c' hexec

theorem HeartbeatRound.steadied (h : HeartbeatRound F cfg L term c₁ c) (hregular : Regular cfg c₁)
    (hrun : Running F.toTiming cfg.n c₁)
    (hinterval : cfg.heartbeatInterval ≤ cfg.electionTimeout.1) :
    Steadied F.toTiming cfg c₁ False term L c₁.now c₁.now c₁.now c₁.now c₁ := by
  obtain ⟨n, hn, hterm, hrole⟩ := h.led
  have hpatient := (hregular.node L n hn).patient
  have hdue := hregular.due L n hn hrole
  refine ⟨le_rfl, ⟨hregular, h.up, hrun.encodable, h.unblocked, ?_⟩,
    ⟨n, hn, .inr ⟨hterm, hrole, ?_⟩⟩, ?_,
    False.elim⟩
  · intro i hi j hj hne
    rw [← hregular.size] at hi hj
    exact hrun.synced i hi j hj hne
  · exact fun p hp hne => .first (h.broadcast p hp hne) (by omega)
  · intro p hp hne m hm s hs hstart hle
    have hd := F.delay_pos
    omega

theorem new_exec_running {c₀ : Cluster χ} (hnew : Cluster.new cfg = .ok c₀)
    (hsized : ∀ op ∈ ops, op.Sized) (hexec : exec next c₀ ops = some c) :
    Running F.toTiming cfg.n c :=
  exec_induction (P := Running F.toTiming cfg.n) (new_running F.faithful hnew)
    (fun _ _ op hop h hn => h.kept F.faithful (hsized op hop) hn) hexec

/-- A heartbeat that the other nodes have handled keeps its sender in place. -/
theorem HeartbeatRound.stable {c₀ c₁ : Cluster χ} {before window : List Op}
    (hinterval : cfg.heartbeatInterval ≤ cfg.electionTimeout.1)
    (hnew : Cluster.new cfg = .ok c₀) (hbefore : exec next c₀ before = some c₁)
    (hwindow : exec next c₁ window = some c) (hround : HeartbeatRound F cfg L term c₁ c)
    (hu : Throughout next Undisturbed c₁ window) (hsized : ∀ op ∈ before ++ window, op.Sized) :
    L < cfg.n ∧ Running F.toTiming cfg.n c ∧ Settled F.toTiming cfg c term c₁.now ∧
      Steadied F.toTiming cfg c True term L c₁.now c.now c.now c.now c := by
  obtain ⟨hsized₀, hsized₁⟩ := List.forall_mem_append.mp hsized
  have hregular := exec_regular (new_regular hnew) hbefore
  have hrun : Running F.toTiming cfg.n c₁ := new_exec_running hnew hsized₀ hbefore
  obtain ⟨l, hl, hterm, _⟩ := hround.leads
  obtain ⟨l₁, hl₁, _⟩ := hround.led
  have hL := (hregular.node L l₁ hl₁).lt
  obtain ⟨hrun', harrived⟩ := exec_steadied (hround.steadied hregular hrun hinterval) hrun hL
    hinterval False.elim hu hsized₁ hwindow
  have hterms : ∀ i n, c.nodes i = some n → n.term ≤ term := by
    intro i n hn
    by_cases hi : i = L
    · subst hi
      obtain rfl : l = n := Option.some.inj (hl.symm.trans hn)
      exact hterm.le
    · obtain ⟨n', hn', ht⟩ := hround.others i (harrived.connected.regular.node i n hn).lt hi
      obtain rfl : n = n' := Option.some.inj (hn.symm.trans hn')
      exact ht.le
  exact ⟨hL, hrun', ⟨hround.elapsed.ge, hround.flight⟩, harrived.since, harrived.connected,
    harrived.beating, harrived.heeded, fun _ => ⟨le_rfl, hterms, fun i j => ⟨[], by simp⟩⟩⟩

end Landsraad
