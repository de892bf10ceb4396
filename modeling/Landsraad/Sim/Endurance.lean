import Landsraad.Raft.CodecErrors
import Landsraad.Raft.Room
import Landsraad.Sim.Reachability
import Landsraad.Sim.Stability

/-!
# A stable leader stays

Under a stable leader and with room in the logs and on the clock, no call of an undisturbed run
panics: the followers' elections are never due, a heartbeat can always be sent, and every proposal
and every message that arrives can be handled. So the leader stays for any number of further calls,
unless a proposed command is too long for the length that is sent with it.
-/

namespace Landsraad

open Cluster Run

variable {χ : Type} [Channel χ] {delay : Nat} {T : Channel.Timing χ delay} {cfg : ClusterConfig}
  {c c' base : Cluster χ} {term L K k start : Nat} {i j : Nat} {n n' : Node Disk}
  {out : List Outgoing} {call : Call}

/-- How many entries the call may add to a log. -/
def Cluster.growth {χ : Type} (c : Cluster χ) : Op → Nat
  | .step d => if c.cfg.faults.propose && d.propose then 1 else 0
  | .propose _ => 1
  | _ => 0

/-- An undisturbed step in which nothing is proposed. -/
def Cluster.Idle {χ : Type} (c : Cluster χ) : Op → Prop
  | .step d => c.Undisturbed (.step d) ∧ (c.cfg.faults.propose && d.propose) = false
  | _ => False

/-- Every node has room for a batch behind `K`, and what is on its way is within `K`. -/
structure Cluster.Roomy (T : Channel.Timing χ delay) (K : Nat) (c : Cluster χ) : Prop where
  nodes : c.Every fun _ n => n.Roomy K
  flight : ∀ i < c.cfg.n, ∀ j < c.cfg.n, i ≠ j → ∀ stamp m, T.Sent (c.links i j) stamp m →
    c.now < stamp + delay → m.Within K

/-- What every node and every message needs for the next call to return. The links are at tick
`k`. -/
structure Hospitable (T : Channel.Timing χ delay) (cfg : ClusterConfig) (K k : Nat)
    (c : Cluster χ) : Prop where
  connected : Connected T cfg k c
  nodes : c.Every fun _ n => n.Roomy K
  flight : ∀ i < cfg.n, ∀ j < cfg.n, i ≠ j → ∀ stamp m, T.Sent (c.links i j) stamp m →
    k < stamp + delay → m.Within K
  batch : c.Every fun _ n => n.cfg.maxBatch = 32
  reached : ∃ s acts, System.initial.run cfg.n acts = some s ∧ Mirrors T.Carried c s

theorem Running.roomy (h : Running T cfg.n c)
    (hnodes : ∀ i < cfg.n, ∀ n ∈ c.nodes i, n.Roomy K)
    (hflight : ∀ i < cfg.n, ∀ j < cfg.n, ∀ d ∈ T.sends (c.links i j),
      ((Channel.read χ d.2).all fun m => decide (m.Within K)) = true) : c.Roomy T K where
  nodes i n hn := by
    obtain ⟨a, s, ht⟩ := h.tracked
    have hi : i < c.cfg.n := (ht.checkable.live i n hn).lt_size
    exact hnodes i (h.size_eq ▸ hi) n hn
  flight i hi j hj _ _ _ hm _ :=
    Channel.Timing.forall_sent (hflight i (h.size_eq ▸ hi) j (h.size_eq ▸ hj)) hm

theorem Cluster.Roomy.hospitable (h : c.Roomy T K) (hconn : Connected T cfg c.now c)
    (hbatch : c.Every fun _ n => n.cfg.maxBatch = 32)
    (hreached : ∃ s acts, System.initial.run cfg.n acts = some s ∧ Mirrors T.Carried c s) :
    Hospitable T cfg K c.now c where
  connected := hconn
  nodes := h.nodes
  flight i hi j hj := h.flight i (hconn.regular.size ▸ hi) j (hconn.regular.size ▸ hj)
  batch := hbatch
  reached := hreached

theorem Hospitable.room (h : Hospitable T cfg K k c) (hpos : 0 < cfg.n) :
    K + 32 < Checked.wordSize := by
  obtain ⟨n, hn⟩ := h.connected.up 0 hpos
  have hbatch := (h.nodes 0 n hn).batch
  rwa [h.batch 0 n hn] at hbatch

theorem Mirrors.deliverable {s : System} {stamp : Nat} {m : Message}
    (h : Mirrors T.Carried c s) (hm : T.Sent (c.links i j) stamp m) : ⟨i, j, m⟩ ∈ s.sent := by
  obtain ⟨b, hb, hread⟩ := hm
  exact h.sent i j b m (List.mem_map_of_mem hb) hread

theorem Fitted.clockFits (h : Fitted cfg i n) {now : Nat}
    (hclock : now + max cfg.electionTimeout.2 cfg.heartbeatInterval < Checked.wordSize) :
    n.ClockFits now := by
  have htimeout := le_max_left cfg.electionTimeout.2 cfg.heartbeatInterval
  have hinterval := le_max_right cfg.electionTimeout.2 cfg.heartbeatInterval
  unfold Node.ClockFits
  rw [h.timeout, h.interval]
  omega

theorem Node.Roomy.length_lt (h : n.Roomy K) : n.log.length < UInt64.size := by
  have hlog := h.log
  have hbatch : K + n.cfg.maxBatch < UInt64.size := h.batch
  omega

theorem Node.Roomy.called {answer : Option Nat} (h : n.Roomy K) (hshort : n'.Short K)
    (hcall : n.call call = .ok (n', out, answer)) : n'.Roomy K where
  toShort := hshort
  batch := by
    rw [(Node.call_timed hcall).cfg]
    exact h.batch

theorem Hospitable.raise {K' : Nat} (h : Hospitable T cfg K k c) (hle : K ≤ K')
    (hroom : K' + 32 < Checked.wordSize) : Hospitable T cfg K' k c where
  connected := h.connected
  nodes i n hn := by
    refine (h.nodes i n hn).mono hle ?_
    rw [h.batch i n hn]
    exact hroom
  flight i hi j hj hne stamp m hsent hlate := (h.flight i hi j hj hne stamp m hsent hlate).mono hle
  batch := h.batch
  reached := h.reached

theorem Hospitable.served (hT : Channel.Faithful χ T.Carried) (h : Hospitable T cfg K k c)
    (hn : c.nodes i = some n) {answer : Option Nat} (hcall : n.call call = .ok (n', out, answer))
    (hnow : call.now = c.now) (hc : call.Encodable)
    (hd : ∀ s, Mirrors T.Carried c s → s.Deliverable i call) (hroom : n'.Roomy K)
    (hout : ∀ o ∈ out, o.message.Within K) :
    ∃ c', c.serve (i, call) = some c' ∧ Hospitable T cfg K k c' := by
  have hs := call_serve hn hcall hroom.length_lt
  have hr : Routed T (c.setNode i (some n')) i out ((c.setNode i (some n')).route i out) :=
    route_routed _ i out
  obtain ⟨_, hfits⟩ := (h.connected.fits i n hn).call hc hcall hroom.length_lt
  refine ⟨_, hs, h.connected.served hnow hc hs, ?_, ?_, h.batch.serve lasting_batch hs, ?_⟩
  · intro p m hm
    rcases hr.node_cases hm with ⟨rfl, rfl⟩ | ⟨_, hm⟩
    · exact hroom
    · exact h.nodes p m hm
  · rintro p hp q hq hne stamp m ⟨b, hb, hread⟩ hlate
    obtain ⟨new, hnew, hsent⟩ := hr.sends p q
    rw [hnew] at hb
    rcases List.mem_append.mp hb with hold | hnew
    · exact h.flight p hp q hq hne stamp m ⟨b, hold, hread⟩ hlate
    · obtain ⟨_, _, m', ho, hbytes⟩ := hsent _ hnew
      have hbytes : b = encodeMessage (Channel.frames χ) m' := hbytes
      rw [hbytes, read_encode hT.frames (hfits _ ho)] at hread
      cases hread
      exact hout _ ho
  · obtain ⟨s, acts, hrun, hm⟩ := h.reached
    obtain ⟨s', hacts, hslots, hsent⟩ := call_runs hm hn hcall (hd s hm)
    rw [h.connected.regular.size] at hacts
    obtain ⟨hn', _⟩ := (hm.encodable hn).call hc hcall hroom.length_lt
    exact ⟨s', _, exec_append_eq_some.mpr ⟨s, hrun, hacts⟩, hm.routed hT hslots hsent hn' hfits⟩

theorem Hospitable.handles (hT : Channel.Faithful χ T.Carried) (h : Hospitable T cfg K k c)
    (hi : i < cfg.n) {m : Message} {stamp : Nat} (hin : T.Sent (c.links j i) stamp m)
    (hm : m.Within K)
    (hclock : c.now + max cfg.electionTimeout.2 cfg.heartbeatInterval < Checked.wordSize) :
    ∃ c', c.serve (i, .handle c.now j m) = some c' ∧ Hospitable T cfg K k c' := by
  obtain ⟨n, hn⟩ := h.connected.up i hi
  obtain ⟨s, acts, hrun, hmirrors⟩ := h.reached
  obtain ⟨b, hb, hread⟩ := hin
  have hsent : ∀ s, Mirrors T.Carried c s → ⟨j, i, m⟩ ∈ s.sent :=
    fun s hs => hs.sent j i b m (List.mem_map_of_mem hb) hread
  have hroomy := h.nodes i n hn
  have hword := h.room (i.zero_le.trans_lt hi)
  have hnode := System.node_of_up (hmirrors.slot_up hn)
  have hreturns := handle_sent_returns hrun hnode hroomy.toShort (by omega) (hsent s hmirrors) hm
    ((h.connected.regular.node i n hn).clockFits hclock)
  obtain ⟨⟨n', out⟩, hhandle⟩ := hreturns.mpr (batches_fit hrun hnode hroomy _)
  obtain ⟨hshort, hout⟩ := Node.handle_short (h.connected.fits i n hn).persisted
    hroomy.toShort hm hhandle
  have hcall := Node.call_handle hhandle
  exact h.served hT hn hcall rfl (encodable_of_read hread) hsent (hroomy.called hshort hcall) hout

theorem Hospitable.beats (hT : Channel.Faithful χ T.Carried) (h : Hospitable T cfg K k c)
    (hn : c.nodes i = some n) (hrole : n.role = .leader)
    (hclock : c.now + max cfg.electionTimeout.2 cfg.heartbeatInterval < Checked.wordSize) :
    ∃ c', c.serve (i, .tick c.now) = some c' ∧ Hospitable T cfg K k c' := by
  obtain ⟨s, acts, hrun, hmirrors⟩ := h.reached
  have hroomy := h.nodes i n hn
  have hnode := System.node_of_up (hmirrors.slot_up hn)
  have hreturns := tick_leader_returns hrun hnode hrole
    ((h.connected.regular.node i n hn).clockFits hclock)
  obtain ⟨⟨n', out⟩, htick⟩ := hreturns.mpr (batches_fit hrun hnode hroomy _)
  obtain ⟨hshort, hout⟩ := Node.tick_short hrole hroomy.toShort htick
  have hcall := Node.call_tick htick
  exact h.served hT hn hcall rfl trivial (fun _ _ => trivial) (hroomy.called hshort hcall) hout

theorem Hospitable.waits (hT : Channel.Faithful χ T.Carried) (h : Hospitable T cfg K k c)
    (hn : c.nodes i = some n) (hrole : n.role = .follower) (hdue : c.now < n.electionDeadline) :
    ∃ c', c.serve (i, .tick c.now) = some c' ∧ Hospitable T cfg K k c' := by
  have hwait : ¬ n.electionDeadline ≤ c.now := Nat.not_le.mpr hdue
  have htick : n.tick c.now = .ok (n, []) := by
    simp only [Node.tick, hrole, ge_iff_le, if_neg hwait]
    rfl
  exact h.served hT hn (Node.call_tick htick) rfl trivial (fun _ _ => trivial)
    (h.nodes i n hn) (by simp)

theorem Hospitable.proposes (hT : Channel.Faithful χ T.Carried) (h : Hospitable T cfg K k c)
    (hroom : K + 1 + 32 < Checked.wordSize) {command : List UInt8}
    (hsized : command.length < UInt32.size) :
    ∃ c' r, c.propose command = .ok (c', r) ∧ Hospitable T cfg (K + 1) k c' := by
  have hraised := h.raise (Nat.le_succ K) hroom
  have hserve : ∀ l n, c.nodes l = some n → ∃ c', c.serve (l, .propose c.now command) = some c' ∧
      Hospitable T cfg (K + 1) k c' := by
    intro l n hn
    obtain ⟨s, acts, hrun, hm⟩ := h.reached
    have hbatch := h.batch l n hn
    have hreturns : (n.propose c.now command).Returns := propose_roomy_returns hrun
      (System.node_of_up (hm.slot_up hn)) (by omega) (h.nodes l n hn)
    obtain ⟨⟨n', out, answer⟩, hcall⟩ := Node.call_propose_returns.mpr hreturns
    obtain ⟨hroomy, hout⟩ := Node.propose_roomy (h.nodes l n hn) (by rwa [hbatch]) hcall
    exact hraised.served hT hn hcall rfl hsized (fun _ _ => trivial) hroomy hout
  obtain ⟨c', r, hp⟩ := h.connected.regular.proposes fun l n hn =>
    (hserve l n hn).imp fun _ hs => hs.1
  rcases propose_serves hp with rfl | ⟨l, n, _, hn, hs⟩
  · exact ⟨c', r, hp, hraised⟩
  · obtain ⟨c₁, hs₁, h₁⟩ := hserve l n hn
    obtain rfl : c' = c₁ := Option.some.inj (hs.symm.trans hs₁)
    exact ⟨c', r, hp, h₁⟩

/-! ## A step -/

theorem Hospitable.congr (h : Hospitable T cfg K k c) {k' : Nat} (hconn : Connected T cfg k' c')
    (hs : SameTraffic T c c') (hk : k ≤ k')
    (hm : ∀ s, Mirrors T.Carried c s → Mirrors T.Carried c' s) : Hospitable T cfg K k' c' where
  connected := hconn
  nodes i n hn := by
    rw [hs.nodes] at hn
    exact h.nodes i n hn
  flight i hi j hj hne stamp m hsent hlate :=
    h.flight i hi j hj hne stamp m (hsent.congr (hs.sends i j).symm) (hk.trans_lt hlate)
  batch i n hn := by
    rw [hs.nodes] at hn
    exact h.batch i n hn
  reached := by
    obtain ⟨s, acts, hrun, hmirrors⟩ := h.reached
    exact ⟨s, acts, hrun, hm s hmirrors⟩

theorem Hospitable.deliver (hT : Channel.Faithful χ T.Carried) (h : Hospitable T cfg K k c)
    {arrivals : List (Nat × Nat × List UInt8)} {f : Faults} {d : Draws} (hcalm : Uneventful f d)
    (hclock : c.now + max cfg.electionTimeout.2 cfg.heartbeatInterval < Checked.wordSize)
    (hin : ∀ i j m, (i, j, m) ∈ heard χ arrivals →
      j < cfg.n ∧ m.Within K ∧ ∃ stamp, T.Sent (c.links i j) stamp m) :
    ∃ c', deliver f d 0 arrivals c = .ok c' ∧ Hospitable T cfg K k c' := by
  let I := fun x : Cluster χ => x.now = c.now ∧ Hospitable T cfg K k x ∧
    ∀ i j, T.sends (c.links i j) ⊆ T.sends (x.links i j)
  have hstep : ∀ x a, a ∈ received χ c.now arrivals → I x → ∃ x', x.serve a = some x' ∧ I x' := by
    rintro x ⟨j, call⟩ ha ⟨hnow, hx, hsub⟩
    obtain ⟨i, m, hm, rfl⟩ := mem_received.mp ha
    obtain ⟨hj, hwithin, stamp, hsent⟩ := hin i j m hm
    rw [← hnow] at hclock ⊢
    obtain ⟨x', hs, hx'⟩ := hx.handles hT hj (hsent.mono (hsub i j)) hwithin hclock
    exact ⟨x', hs, (serve_now hs).trans hnow, hx',
      fun p q => List.Subset.trans (hsub p q) (serve_sends hs p q)⟩
  obtain ⟨c', hrun, _, h', _⟩ := exec_completes (I := I)
    ⟨rfl, h, fun _ _ => List.Subset.refl _⟩ hstep
  exact ⟨c', serves_deliver hcalm hrun, h'⟩

theorem Hospitable.timers (hT : Channel.Faithful χ T.Carried)
    (h : Hospitable T cfg K (k + 1) c)
    (hsteady : Steadied T cfg base True term L start (k + 1) k (k + 1) c) (hnow : c.now = k + 1)
    (hd : 0 < delay) (hL : L < cfg.n) (hinterval : cfg.heartbeatInterval ≤ cfg.electionTimeout.1)
    (hsettled : Settled T cfg base term start)
    (hclock : c.now + max cfg.electionTimeout.2 cfg.heartbeatInterval < Checked.wordSize) :
    ∃ c', timers (List.range cfg.n) c = .ok c' ∧ Hospitable T cfg K (k + 1) c' := by
  let I := fun x : Cluster χ => x.now = c.now ∧ Hospitable T cfg K (k + 1) x ∧
    Steadied T cfg base True term L start (k + 1) k (k + 1) x
  have hstep : ∀ x a, a ∈ (List.range cfg.n).map (fun i => (i, Call.tick c.now)) → I x →
      ∃ x', x.serve a = some x' ∧ I x' := by
    rintro x a ha ⟨hxnow, hx, hxs⟩
    obtain ⟨i, hi, rfl⟩ := List.mem_map.mp ha
    have hi := List.mem_range.mp hi
    obtain ⟨n, hn⟩ := hx.connected.up i hi
    have hserve : ∃ x', x.serve (i, .tick x.now) = some x' ∧ Hospitable T cfg K (k + 1) x' := by
      by_cases hiL : i = L
      · subst hiL
        exact hx.beats hT hn (hxs.leads trivial hn).2 (hxnow ▸ hclock)
      · have hlater : base.now ≤ x.now := (hxs.bounded trivial).later
        have hheard : start + delay ≤ k + 1 := hsettled.heard.trans (by omega)
        obtain ⟨_, hrole, hdue⟩ := hxs.waits hd le_rfl trivial hheard hi hiL hn
        exact hx.waits hT hn hrole (by omega)
    obtain ⟨x', hs, hx'⟩ := hserve
    rw [hxnow] at hs
    refine ⟨x', hs, (serve_now hs).trans hxnow, hx', ?_⟩
    rw [hnow] at hs hxnow
    exact (hxs.tick hd hinterval hL le_rfl (Nat.le_succ k) (fun _ => hsettled) hxnow hT.frames hs).1
  obtain ⟨c', hrun, _, h', _⟩ := exec_completes (I := I) ⟨rfl, h, hsteady⟩ hstep
  exact ⟨c', serves_timers hrun, h'⟩

theorem Connected.injectCrashes_returns {f : Faults} {d : Draws} (h : Connected T cfg k c)
    (hf : (f.crash && d.crash) = false) (hpos : 0 < cfg.n) :
    c.injectCrashes f d = .ok (c, .ok ()) := by
  have hsize : c.cfg.n ≠ 0 := by
    rw [h.regular.size]
    omega
  have hlt : d.restarted % c.cfg.n < cfg.n := by
    rw [← h.regular.size]
    exact Nat.mod_lt _ (Nat.pos_of_ne_zero hsize)
  obtain ⟨n, hn⟩ := h.up _ hlt
  refine Checked.bind_eq_ok.mpr ⟨c, by rw [hf]; rfl, ?_⟩
  split
  · refine Checked.bind_eq_ok.mpr ⟨d.restarted % c.cfg.n, if_neg hsize, ?_⟩
    simp only [Cluster.restart, hn]
    rfl
  · rfl

omit [Channel χ] in
theorem network_sameNodes (c : Cluster χ) (f : Faults) (d : Draws) :
    SameNodes c (c.network f d) := by
  unfold Cluster.network
  dsimp only
  split <;> split <;> exact ⟨rfl, rfl, rfl, rfl⟩

theorem Hospitable.injectRest (hT : Channel.Faithful χ T.Carried) (h : Hospitable T cfg K k c)
    {f : Faults} {d : Draws} (hf : (f.partition && d.partition) = false)
    (hcount : c.nextCommand.toNat < c.now) (hnow : c.now < Checked.wordSize)
    (hroom : K + (if f.propose && d.propose then 1 else 0) + 32 < Checked.wordSize) :
    ∃ c', c.injectRest f d = .ok c' ∧
      Hospitable T cfg (K + if f.propose && d.propose then 1 else 0) k c' := by
  have hnetwork : Hospitable T cfg K k (c.network f d) :=
    h.congr (h.connected.network hf) (network_traffic c f d) le_rfl
      fun _ hs => hs.same (network_sameNodes c f d)
  cases hpropose : f.propose && d.propose with
  | false =>
    refine ⟨c.network f d, ?_, hnetwork⟩
    change (if f.propose && d.propose then _ else pure _) = _
    rw [hpropose]
    rfl
  | true =>
    rw [hpropose] at hroom
    obtain ⟨c₁, r, hp, h₁⟩ := hnetwork.proposes hT hroom
      (injected_short (c.network f d).nextCommand)
    obtain ⟨hnow₁, hcount₁⟩ := propose_clocks hp
    have hunrouted := network_unrouted c f d
    rw [hunrouted.now] at hnow₁
    rw [hunrouted.count] at hcount₁
    cases r with
    | error e =>
      refine ⟨c₁, ?_, h₁⟩
      change (if f.propose && d.propose then _ else pure _) = _
      rw [hpropose]
      exact Checked.bind_eq_ok.mpr ⟨_, hp, rfl⟩
    | ok accepted =>
      have hlt : c₁.nextCommand.toNat + 1 < Checked.wordSize := by
        rw [hcount₁]
        omega
      have hadd := Checked.add_eq_ok.mpr ⟨hlt, rfl⟩
      have hnext : (UInt64.ofNat (c₁.nextCommand.toNat + 1)).toNat ≤ c₁.now := by
        rw [UInt64.toNat_ofNat_of_lt' hlt, hcount₁, hnow₁]
        exact hcount
      refine ⟨{ c₁ with nextCommand := UInt64.ofNat (c₁.nextCommand.toNat + 1) }, ?_,
        h₁.congr (h₁.connected.recount hnext) ⟨rfl, fun _ _ => rfl⟩ le_rfl
          fun _ hs => hs.same ⟨rfl, rfl, rfl, rfl⟩⟩
      change (if f.propose && d.propose then _ else pure _) = _
      rw [hpropose]
      exact Checked.bind_eq_ok.mpr ⟨_, hp, Checked.bind_eq_ok.mpr ⟨_, hadd, rfl⟩⟩

theorem Hospitable.injected (hT : Channel.Faithful χ T.Carried) (h : Hospitable T cfg K k c)
    {d : Draws} (hu : c.Undisturbed (.step d)) (hpos : 0 < cfg.n)
    (hnow : c.now + 1 < Checked.wordSize)
    (hroom : K + c.growth (.step d) + 32 < Checked.wordSize) :
    ∃ c', c.injected d = .ok (c', .ok ()) ∧ Hospitable T cfg (K + c.growth (.step d)) k c' := by
  obtain ⟨hcrash, hpartition, _⟩ := hu
  have hadd : Checked.add c.now 1 = .ok (c.now + 1) := Checked.add_eq_ok.mpr ⟨hnow, rfl⟩
  have hlater : Hospitable T cfg K k { c with now := c.now + 1 } :=
    h.congr h.connected.later ⟨rfl, fun _ _ => rfl⟩ le_rfl fun _ hs => hs.same ⟨rfl, rfl, rfl, rfl⟩
  have hcrashes := hlater.connected.injectCrashes_returns hcrash hpos
  obtain ⟨c', hrest, h'⟩ := hlater.injectRest hT hpartition
    (Nat.lt_succ_of_le h.connected.regular.count) hnow hroom
  exact ⟨c', Checked.bind_eq_ok.mpr ⟨_, hadd, Checked.bind_eq_ok.mpr ⟨_, hcrashes,
    Checked.bind_eq_ok.mpr ⟨_, hrest, rfl⟩⟩⟩, h'⟩

/-- An idle step injects nothing but a heal. -/
theorem Connected.idle {d : Draws} {r : Except Violation Unit} (h : Connected T cfg k c)
    (hidle : c.Idle (.step d)) (hi : c.injected d = .ok (c', r)) :
    SameNodes c c' ∧ c'.now = c.now + 1 := by
  obtain ⟨⟨hcrash, hpartition, _⟩, hpropose⟩ := hidle
  obtain ⟨now, hnow, hi⟩ := Checked.bind_eq_ok.mp hi
  obtain ⟨_, rfl⟩ := Checked.add_eq_ok.mp hnow
  obtain ⟨⟨c₁, r₁⟩, hcrashes, hi⟩ := Checked.bind_eq_ok.mp hi
  obtain rfl := h.later.injectCrashes hcrash hcrashes
  cases r₁ with
  | error v =>
    cases hi
    exact ⟨⟨rfl, rfl, rfl, rfl⟩, rfl⟩
  | ok u =>
    obtain ⟨c₂, hrest, hi⟩ := Checked.bind_eq_ok.mp hi
    cases hi
    rcases injectRest_cases hrest with ⟨_, rfl⟩ | ⟨hproposes, _⟩
    · simp only [Cluster.network, hpartition]
      split <;> exact ⟨⟨rfl, rfl, rfl, rfl⟩, rfl⟩
    · rw [hpropose] at hproposes
      cases hproposes

variable {F : Channel.FixedDelay χ delay}

theorem Hospitable.step {op : Op} (h : Hospitable F.toTiming cfg K c.now c)
    (hsteady : Steadied F.toTiming cfg base True term L start c.now c.now c.now c)
    (hL : L < cfg.n) (hinterval : cfg.heartbeatInterval ≤ cfg.electionTimeout.1)
    (hsettled : Settled F.toTiming cfg base term start) (hu : c.Undisturbed op) (hsized : op.Sized)
    (hroom : K + c.growth op + 32 < Checked.wordSize)
    (hclock : c.now + 1 + max cfg.electionTimeout.2 cfg.heartbeatInterval < Checked.wordSize) :
    ∃ c', c.next op = some c' ∧ c'.now ≤ c.now + 1 ∧
      Hospitable F.toTiming cfg (K + c.growth op) c'.now c' := by
  cases op with
  | step d =>
    obtain ⟨c₁, hinjected, h₁⟩ := h.injected F.faithful hu (by omega) (by omega) hroom
    obtain ⟨hnow₁, hsteady₁⟩ := hsteady.injected hL F.delay_pos hu hinjected
    have hbase : base.now ≤ c.now := (hsteady.bounded trivial).later
    have hlinks : SameTraffic F.toTiming c₁ c₁.advanceLinks.1 := advanceLinks_traffic c₁
    have hadvanced : Hospitable F.toTiming cfg (K + c.growth (.step d)) (c.now + 1)
        c₁.advanceLinks.1 := by
      have hconn := h₁.connected.advanceLinks
      rw [hnow₁] at hconn
      exact h₁.congr hconn hlinks (Nat.le_succ c.now)
        fun s hs => (advanceLinks_mirrors F.faithful hs).1
    have hin : ∀ i j m, (i, j, m) ∈ heard χ c₁.advanceLinks.2 → j < cfg.n ∧
        m.Within (K + c.growth (.step d)) ∧
        ∃ stamp, F.Sent (c₁.advanceLinks.1.links i j) stamp m := by
      intro i j m hm
      obtain ⟨hi, hj, hne, stamp, hsent, hdue⟩ := (hsteady₁.connected.arrives hnow₁).mp hm
      exact ⟨hj, h₁.flight i hi j hj hne stamp m hsent (by omega), stamp,
        hsent.congr (hlinks.sends i j)⟩
    obtain ⟨c₂, hdeliver, h₂⟩ := hadvanced.deliver F.faithful hu.2.2 (hnow₁ ▸ hclock) hin
    obtain ⟨hnow₂, hsteady₂⟩ := hsteady₁.delivered hnow₁ hL (fun _ => hsettled) (fun _ => hbase)
      hu.2.2 hdeliver
    obtain ⟨c₃, htimers, h₃⟩ := h₂.timers F.faithful hsteady₂ hnow₂ F.delay_pos hL hinterval
      hsettled (hnow₂ ▸ hclock)
    have hnow₃ : c₃.now = c.now + 1 := by
      have hgrows : Grows F.toTiming c₂ c₃ := timers_grows htimers
      exact hgrows.now.trans hnow₂
    have halike := checkInvariants_alike c₃
    rw [← h₂.connected.regular.size] at htimers
    refine ⟨c₃.checkInvariants.1, next_step hinjected hdeliver htimers,
      (halike.now.trans hnow₃).le, ?_⟩
    rw [halike.now, hnow₃]
    exact h₃.congr (h₃.connected.alike halike) halike.traffic le_rfl
      fun s hs => hs.same halike.toSameNodes
  | propose command =>
    obtain ⟨c', r, hp, h'⟩ := h.proposes F.faithful hroom hsized
    obtain ⟨hnow, _⟩ := propose_clocks hp
    rw [← hnow] at h'
    exact ⟨c', propose_next hp, hnow.le.trans (Nat.le_succ c.now), h'⟩
  | _ => exact hu.elim

/-! ## Runs -/

omit [Channel χ] in
theorem Cluster.Idle.undisturbed {op : Op} (h : c.Idle op) :
    c.Undisturbed op ∧ op.Sized ∧ c.growth op = 0 := by
  cases op with
  | step d =>
    obtain ⟨hu, hpropose⟩ := h
    exact ⟨hu, trivial, by simp [growth, hpropose]⟩
  | _ => exact h.elim

omit [Channel χ] in
theorem Cluster.growth_le (c : Cluster χ) (op : Op) : c.growth op ≤ 1 := by
  cases op with
  | step d =>
    dsimp only [growth]
    split <;> decide
  | propose command => exact le_rfl
  | _ => exact Nat.zero_le 1

/-- An undisturbed run whose calls add `most` entries each at most goes to its end if the logs and
the clock have room for it. -/
theorem exec_returns {ops : List Op} {most : Nat} (hrun : Running F.toTiming cfg.n c)
    (hsteady : Steadied F.toTiming cfg base True term L start c.now c.now c.now c)
    (hL : L < cfg.n) (hinterval : cfg.heartbeatInterval ≤ cfg.electionTimeout.1)
    (hsettled : Settled F.toTiming cfg base term start)
    (hu : Throughout next (fun x op => x.Undisturbed op ∧ op.Sized ∧ x.growth op ≤ most) c ops)
    (h : Hospitable F.toTiming cfg K c.now c)
    (hroom : K + most * ops.length + 32 < Checked.wordSize)
    (hclock : c.now + ops.length + max cfg.electionTimeout.2 cfg.heartbeatInterval <
      Checked.wordSize) : ∃ c', exec next c ops = some c' := by
  induction ops generalizing c K with
  | nil => exact ⟨c, rfl⟩
  | cons op ops ih =>
    rw [List.length_cons, Nat.mul_succ] at hroom
    rw [List.length_cons] at hclock
    obtain ⟨⟨hop, hsized, hgrowth⟩, hrest⟩ := throughout_cons.mp hu
    obtain ⟨c₁, hn, hnow, h₁⟩ := h.step hsteady hL hinterval hsettled hop hsized (by omega)
      (by omega)
    obtain ⟨c', hexec⟩ := ih (hrun.kept F.faithful hsized hn)
      (hsteady.next hrun hL hinterval (fun _ => hsettled) hop hsized hn) (hrest c₁ hn) h₁
      (by omega) (by omega)
    exact ⟨c', exec_cons_eq_some.mpr ⟨c₁, hn, hexec⟩⟩

/-- Over links of a fixed delay, from any state in which the other nodes have handled a heartbeat
that their leader broadcast a delay before, no run without faults deposes the leader: whatever is
proposed in fewer than `2 ^ 32` bytes, it goes on to lead its term, the others follow it, and no
message of a later term is sent. No call of the run panics while the logs, with a batch behind
them, and the clock have room. -/
theorem stable_leader {before window after : List Op} {c₀ c₁ : Cluster χ}
    (hinterval : cfg.heartbeatInterval ≤ cfg.electionTimeout.1)
    (hnew : Cluster.new cfg = .ok c₀) (hbefore : exec next c₀ before = some c₁)
    (hwindow : exec next c₁ window = some c) (hround : HeartbeatRound F cfg L term c₁ c)
    (hu : Throughout next Undisturbed c₁ (window ++ after))
    (hsized : ∀ op ∈ before ++ window ++ after, op.Sized) :
    (∀ c', exec next c after = some c' →
      c'.InRole L term .leader ∧ (∀ p < cfg.n, p ≠ L → c'.InRole p term .follower) ∧
        ∀ i j, ∃ new, F.sends (c'.links i j) = F.sends (c.links i j) ++ new ∧
          ∀ x ∈ new, ∃ m : Message, m.Encodable ∧ m.term ≤ term ∧
            x.2 = encodeMessage (Channel.frames χ) m) ∧
      ∀ K, c.Roomy F.toTiming K → K + after.length + 32 < UInt64.size →
        c.now + after.length + max cfg.electionTimeout.2 cfg.heartbeatInterval < UInt64.size →
        ∃ c', exec next c after = some c' := by
  obtain ⟨hsized₁, hsized₂⟩ := List.forall_mem_append.mp hsized
  obtain ⟨hL, hrun, hsettled, hstart⟩ := hround.stable hinterval hnew hbefore hwindow
    (hu.of_isPrefix (List.prefix_append window after)) hsized₁
  have hundisturbed := hu.of_append hwindow
  refine ⟨fun c' hafter => ?_, fun K hroomy hroom hclock => ?_⟩
  · obtain ⟨_, hend⟩ := exec_steadied hstart hrun hL hinterval (fun _ => hsettled) hundisturbed
      hsized₂ hafter
    have hb := hend.bounded trivial
    refine ⟨?_, fun p hp hne => ?_, hb.sends⟩
    · obtain ⟨n, hn⟩ := hend.connected.up L hL
      obtain ⟨ht, hr⟩ := hend.leads trivial hn
      exact ⟨n, hn, ht, hr⟩
    · obtain ⟨n, hn⟩ := hend.connected.up p hp
      have hheard := hsettled.heard.trans hb.later
      obtain ⟨ht, hr, _⟩ :=
        hend.waits F.delay_pos (Nat.le_succ c'.now) trivial hheard hp hne hn
      exact ⟨n, hn, ht, hr⟩
  · have hall : exec next c₀ (before ++ window) = some c :=
      exec_append_eq_some.mpr ⟨c₁, hbefore, hwindow⟩
    obtain ⟨_, hreached⟩ := exec_reached F.faithful hnew hsized₁ hall
    have hhospitable := hroomy.hospitable hstart.connected (exec_every lasting_batch hnew hall)
      hreached
    have hgrowing : Throughout next
        (fun x op => x.Undisturbed op ∧ op.Sized ∧ x.growth op ≤ 1) c after :=
      fun ys op hpre x hx => ⟨hundisturbed ys op hpre x hx,
        hsized₂ op (hpre.subset (by simp)), x.growth_le op⟩
    exact exec_returns hrun hstart hL hinterval hsettled hgrowing hhospitable
      (by rwa [Nat.one_mul]) hclock

/-! ## A run -/

/-- A link of `OneTick` hands out what is exactly one tick old. -/
def OneTick.fixedDelay : Channel.FixedDelay OneTick 1 where
  toTiming := OneTick.timing
  frames := plainFrames_faithful
  delay_pos := Nat.one_pos
  on_time c k := by
    constructor
    · intro hk
      obtain ⟨hlt, hany⟩ := List.mem_filter.mp hk
      obtain ⟨⟨stamp, b⟩, hp, hdue⟩ := (Option.any_eq_true _ _).mp hany
      have hdue := of_decide_eq_true hdue
      exact ⟨stamp, b, hp, Nat.le_antisymm hdue.2 hdue.1⟩
    · rintro ⟨stamp, b, hp, hdue⟩
      have hp : c.sends[k]? = some (stamp, b) := hp
      have hdue : stamp + 1 = c.clock + 1 := hdue
      refine List.mem_filter.mpr ⟨?_, ?_⟩
      · exact List.mem_range.mpr (List.getElem?_eq_some_iff.mp hp).1
      · exact (Option.any_eq_true _ _).mpr
          ⟨(stamp, b), hp, decide_eq_true ⟨Nat.lt_of_succ_le hdue.ge, hdue.le⟩⟩
  intact := OneTick.timing_exact

namespace Cluster

/-- The no-op of the leader has just arrived. -/
def attended : Cluster OneTick := (exec next elected (steps 1)).get (by decide +kernel)

def requests : List Op := .propose [1] :: steps 3 ++ .step proposing :: steps 8

/-- Well past the election deadlines that the nodes had when the leader was elected. -/
def reigning : Cluster OneTick := (exec next attended requests).get (by decide +kernel)

end Cluster

theorem elected_heartbeat : HeartbeatRound OneTick.fixedDelay busy 0 1 elected attended where
  up i hi := Option.isSome_iff_exists.mp
    ((by decide +kernel : ∀ i < busy.n, (elected.nodes i).isSome) i hi)
  unblocked := by decide +kernel
  led := by decide +kernel
  broadcast p hp hne := Channel.Timing.exists_sent
    ((by decide +kernel : ∀ p < busy.n, p ≠ 0 →
      ∃ d ∈ OneTick.fixedDelay.sends (elected.links 0 p), d.1 = elected.now ∧
        ((Channel.read OneTick d.2).any fun m => decide (m.Appends 1)) = true) p hp hne)
  elapsed := by decide +kernel
  leads := by decide +kernel
  others p hp hne := by
    have hfollows : ∀ p < busy.n, p ≠ 0 → attended.InRole p 1 .follower := by decide +kernel
    obtain ⟨n, hn, hterm, _⟩ := hfollows p hp hne
    exact ⟨n, hn, hterm⟩
  flight i hi j hj _ _ _ hm _ := Channel.Timing.forall_sent
    ((by decide +kernel : ∀ i < busy.n, ∀ j < busy.n,
      ∀ d ∈ OneTick.fixedDelay.sends (attended.links i j),
        ((Channel.read OneTick d.2).all fun m => decide (m.term ≤ 1)) = true) i hi j hj) hm

/-- Node 2 was still a candidate when node 0 was elected. -/
theorem stable_leader_elected : exec next attended requests = some reigning ∧
    reigning.now = 21 ∧ reigning.InRole 0 1 .leader ∧
    ∀ p < 3, p ≠ 0 → reigning.InRole p 1 .follower := by
  have helected : exec next fresh (steps 8) = some elected := (Option.some_get _).symm
  have hattended : exec next elected (steps 1) = some attended := (Option.some_get _).symm
  have hbefore : exec next fresh (steps 8 ++ steps 1) = some attended :=
    exec_append_eq_some.mpr ⟨elected, helected, hattended⟩
  have hrun : Running OneTick.timing busy.n attended :=
    new_exec_running (F := OneTick.fixedDelay) new_busy (by decide) hbefore
  have hu : Throughout next Undisturbed elected (steps 1 ++ requests) := by
    intro ys op hpre c _
    have hmem : op ∈ steps 1 ++ requests := hpre.subset (by simp)
    have hall : ∀ op ∈ steps 1 ++ requests, c.Undisturbed op := by
      simp [requests, steps, Undisturbed, Uneventful, still, proposing]
    exact hall op hmem
  obtain ⟨hstays, hreturns⟩ := stable_leader (F := OneTick.fixedDelay) (by decide) new_busy
    helected hattended elected_heartbeat hu (by decide)
  have hroomy : attended.Roomy OneTick.timing 1 :=
    hrun.roomy (by decide +kernel) (by decide +kernel)
  obtain ⟨c, hc⟩ := hreturns 1 hroomy (by decide) (by decide +kernel)
  obtain rfl : reigning = c := Option.get_of_eq_some _ hc
  obtain ⟨hleads, hfollow, _⟩ := hstays reigning hc
  exact ⟨hc, by decide +kernel, hleads, hfollow⟩

/-! ## A command that is too long -/

section Oversized

theorem still_injected (hnow : c.now + 1 < Checked.wordSize) :
    c.injected still = .ok ({ c with now := c.now + 1 }, .ok ()) := by
  have hadd : Checked.add c.now 1 = .ok (c.now + 1) := Checked.add_eq_ok.mpr ⟨hnow, rfl⟩
  simp only [injected, hadd, Checked.ok_bind, injectCrashes, injectRest, still, Bool.and_false]
  rfl

/-- Nothing that node 0 has sent since tick 5 can be read. -/
structure Mute (F : Channel.FixedDelay χ 1) (P : Node Disk → Prop) (f : Node Disk) (t : Nat)
    (c : Cluster χ) : Prop where
  now : c.now = t
  size : c.cfg.n = 2
  leader : ∃ l, c.nodes 0 = some l ∧ P l
  peer : c.nodes 1 = some f
  clock : ∀ i < 2, ∀ j < 2, i ≠ j → F.clock (c.links i j) = t
  silent : ∀ stamp m, F.Sent (c.links 0 1) stamp m → stamp < 5
  answers : ∀ stamp m, F.Sent (c.links 1 0) stamp m →
    stamp ≤ 5 ∧ (stamp = 5 → m = .appendResponse 1 true 1)

/-- From a node in `P` the call leads to one in `Q` and to messages that cannot be read. -/
def Unheard (χ : Type) [Channel χ] (P Q : Node Disk → Prop) (call : Call) : Prop :=
  ∀ l, P l → ∃ l' out answer, l.call call = .ok (l', out, answer) ∧ Q l' ∧
    l'.log.length < UInt64.size ∧
    ∀ o ∈ out, Channel.read χ (encodeMessage (Channel.frames χ) o.message) = none

variable {F : Channel.FixedDelay χ 1} {P Q : Node Disk → Prop} {f : Node Disk} {t : Nat}

theorem Mute.served {call : Call} (h : Mute F P f t c) (hcall : Unheard χ P Q call) :
    ∃ c', c.serve (0, call) = some c' ∧ Mute F Q f t c' := by
  obtain ⟨l, hl, hP⟩ := h.leader
  obtain ⟨l', out, answer, hl', hQ, hlen, hout⟩ := hcall l hP
  have hr : Routed F.toTiming (c.setNode 0 (some l')) 0 out
      ((c.setNode 0 (some l')).route 0 out) := route_routed _ 0 out
  refine ⟨_, call_serve hl hl' hlen, ?_⟩
  constructor
  · exact hr.now.trans h.now
  · exact (congrArg ClusterConfig.n hr.cfg).trans h.size
  · exact ⟨l', hr.node_self, hQ⟩
  · exact (hr.node_other (by decide)).trans h.peer
  · intro i hi j hj hne
    exact (hr.clock i j).trans (h.clock i hi j hj hne)
  · rintro stamp m ⟨b, hb, hread⟩
    obtain ⟨new, hnew, hsent⟩ := hr.sends 0 1
    rw [hnew] at hb
    rcases List.mem_append.mp hb with hold | hb
    · exact h.silent stamp m ⟨b, hold, hread⟩
    · obtain ⟨_, _, m', ho, hbytes⟩ := hsent _ hb
      have hbytes : b = encodeMessage (Channel.frames χ) m' := hbytes
      rw [hbytes, hout _ ho] at hread
      cases hread
  · rintro stamp m ⟨b, hb, hread⟩
    obtain ⟨new, hnew, hsent⟩ := hr.sends 1 0
    rw [hnew] at hb
    rcases List.mem_append.mp hb with hold | hb
    · exact h.answers stamp m ⟨b, hold, hread⟩
    · obtain ⟨_, hi, _⟩ := hsent _ hb
      cases hi

theorem Mute.advanced (h : Mute F P f t c) :
    Mute F P f (t + 1) (advanceLinks { c with now := c.now + 1 }).1 := by
  have hsends : ∀ i j, F.sends ((advanceLinks { c with now := c.now + 1 }).1.links i j) =
      F.sends (c.links i j) :=
    (advanceLinks_traffic (T := F.toTiming) { c with now := c.now + 1 }).sends
  constructor
  · exact congrArg (· + 1) h.now
  · exact h.size
  · exact h.leader
  · exact h.peer
  · intro i hi j hj hne
    have hlink : (advanceLinks { c with now := c.now + 1 }).1.links i j =
        (Channel.advance (c.links i j) (c.now + 1)).1 :=
      if_pos ⟨h.size ▸ hi, h.size ▸ hj, hne⟩
    rw [hlink, F.clock_advance, h.now]
  · exact fun stamp m hsent => h.silent stamp m (hsent.congr (hsends 0 1).symm)
  · exact fun stamp m hsent => h.answers stamp m (hsent.congr (hsends 1 0).symm)

theorem Mute.stepped {f' : Node Disk} {out : List Outgoing} (h : Mute F P f t c) (ht : 5 ≤ t)
    (hmax : t + 1 < Checked.wordSize)
    (hanswer : t = 5 → Unheard χ P P (.handle (t + 1) 1 (.appendResponse 1 true 1)))
    (htick : Unheard χ P Q (.tick (t + 1))) (hf : f.tick (t + 1) = .ok (f', out))
    (hlen : f'.log.length < UInt64.size) :
    ∃ c', c.next (.step still) = some c' ∧ c'.nodes 1 = some f' ∧
      (f' = f → out = [] → Mute F Q f (t + 1) c') := by
  let c₁ : Cluster χ := { c with now := c.now + 1 }
  have hadvanced : Mute F P f (t + 1) c₁.advanceLinks.1 := h.advanced
  have hnow : c₁.now = t + 1 := congrArg (· + 1) h.now
  have hdeliver : ∃ c₂, exec serve c₁.advanceLinks.1 (received χ c₁.advanceLinks.1.now
      c₁.advanceLinks.2) = some c₂ ∧ Mute F P f (t + 1) c₂ := by
    refine exec_completes hadvanced ?_
    rintro x ⟨j, call⟩ ha hx
    obtain ⟨i, m, hm, rfl⟩ := mem_received.mp ha
    obtain ⟨hi, hj, hne, stamp, hsent, hdue⟩ :=
      (mem_heard_advance (F := F) (c := c₁) h.size h.clock hnow).mp hm
    have hstamp : stamp = t := Nat.succ.inj hdue
    obtain ⟨rfl, rfl⟩ | ⟨rfl, rfl⟩ : (i = 0 ∧ j = 1) ∨ (i = 1 ∧ j = 0) := by omega
    · have hearly := h.silent stamp m hsent
      omega
    · obtain ⟨hle, hresponse⟩ := h.answers stamp m hsent
      have hfive : t = 5 := by omega
      rw [hresponse (hstamp.trans hfive), hadvanced.now]
      exact hx.served (hanswer hfive)
  obtain ⟨c₂, hserves, h₂⟩ := hdeliver
  have hd := serves_deliver (f := c.cfg.faults) (d := still) (k := 0)
    (fun k => Bool.and_false _) hserves
  obtain ⟨c₃, hlead, h₃⟩ := h₂.served htick
  have hpeer := call_serve h₃.peer (Node.call_tick hf) hlen
  have htimers : exec serve c₂ ((List.range c₂.cfg.n).map fun i => (i, .tick c₂.now)) =
      some ((c₃.setNode 1 (some f')).route 1 out) := by
    rw [h₂.size, h₂.now]
    exact exec_cons_eq_some.mpr ⟨c₃, hlead, exec_cons_eq_some.mpr ⟨_, hpeer, rfl⟩⟩
  have hnext := next_step (still_injected (h.now ▸ hmax)) hd (serves_timers htimers)
  have halike := checkInvariants_alike ((c₃.setNode 1 (some f')).route 1 out)
  have hrouted : Routed F.toTiming (c₃.setNode 1 (some f')) 1 out
      ((c₃.setNode 1 (some f')).route 1 out) := route_routed _ 1 out
  refine ⟨_, hnext, ?_, ?_⟩
  · rw [halike.nodes]
    exact hrouted.node_self
  · rintro rfl rfl
    constructor
    · exact halike.now.trans h₃.now
    · exact (congrArg ClusterConfig.n halike.cfg).trans h₃.size
    · obtain ⟨l, hl, hQ⟩ := h₃.leader
      refine ⟨l, ?_, hQ⟩
      rw [halike.nodes]
      exact (hrouted.node_other (by decide)).trans hl
    · rw [halike.nodes]
      exact hrouted.node_self
    · intro i hi j hj hne
      rw [halike.links]
      exact h₃.clock i hi j hj hne
    · intro stamp m hsent
      rw [halike.links] at hsent
      exact h₃.silent stamp m hsent
    · intro stamp m hsent
      rw [halike.links] at hsent
      exact h₃.answers stamp m hsent

/-- A leader of term 1 in a cluster of two, and how far it takes its peer to be. -/
def Node.crowned (n : Node Disk) (log : List Entry) (next matched commit due : Nat) : Node Disk :=
  { n with
    cfg := { n.cfg with id := 0, clusterSize := 2, heartbeatInterval := 2, maxBatch := 32 }
    term := 1
    log
    role := .leader
    commitIndex := commit
    nextIndex := [1, next]
    matchIndex := [0, matched]
    heartbeatDeadline := due }

/-- The leader with an entry behind its no-op, before and after its peer has acknowledged that. -/
def Node.Burdened (command : List UInt8) (due : Nat) (l : Node Disk) : Prop :=
  ∃ (n : Node Disk) (k : Nat), k ≤ 1 ∧
    l = n.crowned [⟨1, []⟩, ⟨1, command⟩] (k + 1) k k due

section Burdened

variable {command : List UInt8} {k : Nat}

theorem call_propose_crowned (n : Node Disk) :
    (n.crowned [⟨1, []⟩] 1 0 0 6).call (.propose 5 command) =
      .ok (Node.crowned { n with storage := n.storage.write { n.storage.current with
          log := n.storage.current.log ++ [⟨1, command⟩] } } [⟨1, []⟩, ⟨1, command⟩] 1 0 0 6,
        [⟨1, .appendEntries 1 0 0 [⟨1, []⟩, ⟨1, command⟩] 0⟩], some 2) := by
  simp [Node.call, Node.propose, Node.advanceCommit, Node.lastIndex, Node.commitScan,
    Node.crowned, Node.termAt, Node.replicasAmong, Node.peers, Node.quorum, Node.broadcastAppend,
    Node.appendFor, Checked.get, Checked.add, Checked.sub, Checked.slice, Checked.wordSize,
    UInt64.size, List.range, List.range.loop]
  rfl

theorem call_handle_crowned (n : Node Disk) (hk : k ≤ 1) :
    (n.crowned [⟨1, []⟩, ⟨1, command⟩] (k + 1) k k 6).call
        (.handle 6 1 (.appendResponse 1 true 1)) =
      .ok (n.crowned [⟨1, []⟩, ⟨1, command⟩] 2 1 1 6,
        [⟨1, .appendEntries 1 1 1 [⟨1, command⟩] 1⟩], none) := by
  obtain rfl | rfl : k = 0 ∨ k = 1 := by omega
  all_goals
    simp [Node.call, Node.handle, Node.onAppendResponse, Message.term, Node.advanceCommit,
      Node.lastIndex, Node.commitScan, Node.crowned, Node.termAt, Node.replicasAmong, Node.peers,
      Node.quorum, Node.appendFor, Checked.set, Checked.get, Checked.add, Checked.sub,
      Checked.slice, Checked.wordSize, UInt64.size, List.range, List.range.loop]

/-- Every batch of the leader ends in the entry. -/
theorem call_tick_crowned (n : Node Disk) (hk : k ≤ 1) :
    (n.crowned [⟨1, []⟩, ⟨1, command⟩] (k + 1) k k 6).call (.tick 6) =
      .ok (n.crowned [⟨1, []⟩, ⟨1, command⟩] (k + 1) k k 8,
        [⟨1, .appendEntries 1 k k (List.replicate (1 - k) ⟨1, []⟩ ++ [⟨1, command⟩]) k⟩],
        none) := by
  obtain rfl | rfl : k = 0 ∨ k = 1 := by omega
  all_goals rfl

theorem read_burden (hframe : (Channel.frames χ).Faithful)
    (hlen : UInt32.size ≤ command.length) (hk : k ≤ 1) : Channel.read χ (encodeMessage
      (Channel.frames χ) (.appendEntries 1 k k
        (List.replicate (1 - k) ⟨1, []⟩ ++ [⟨1, command⟩]) k)) = none := by
  have hfits : Message.Encodable (.appendEntries 1 k k
      (List.replicate (1 - k) ⟨1, []⟩ ++ [⟨1, []⟩]) k) := by
    obtain rfl | rfl : k = 0 ∨ k = 1 := by omega
    all_goals simp [Message.Encodable, Entry.Encodable, UInt64.size, UInt32.size]
  simp [Channel.read, decode_oversized hframe hfits hlen]

theorem propose_burdens (hframe : (Channel.frames χ).Faithful)
    (hlen : UInt32.size ≤ command.length) : Unheard χ
      (fun l => ∃ n : Node Disk, l = n.crowned [⟨1, []⟩] 1 0 0 6) (Node.Burdened command 6)
      (.propose 5 command) := by
  rintro _ ⟨n, rfl⟩
  refine ⟨_, _, _, call_propose_crowned n, ⟨_, 0, Nat.zero_le 1, rfl⟩,
    by simp [Node.crowned, UInt64.size], ?_⟩
  intro o ho
  obtain rfl := List.mem_singleton.mp ho
  exact read_burden hframe hlen (Nat.zero_le 1)

theorem burdened_handle (hframe : (Channel.frames χ).Faithful)
    (hlen : UInt32.size ≤ command.length) : Unheard χ (Node.Burdened command 6)
      (Node.Burdened command 6) (.handle 6 1 (.appendResponse 1 true 1)) := by
  rintro _ ⟨n, k, hk, rfl⟩
  refine ⟨_, _, _, call_handle_crowned n hk, ⟨n, 1, le_rfl, rfl⟩,
    by simp [Node.crowned, UInt64.size], ?_⟩
  intro o ho
  obtain rfl := List.mem_singleton.mp ho
  exact read_burden hframe hlen le_rfl

theorem burdened_tick (hframe : (Channel.frames χ).Faithful)
    (hlen : UInt32.size ≤ command.length) :
    Unheard χ (Node.Burdened command 6) (Node.Burdened command 8) (.tick 6) := by
  rintro _ ⟨n, k, hk, rfl⟩
  refine ⟨_, _, _, call_tick_crowned n hk, ⟨n, k, hk, rfl⟩,
    by simp [Node.crowned, UInt64.size], ?_⟩
  intro o ho
  obtain rfl := List.mem_singleton.mp ho
  exact read_burden hframe hlen hk

theorem burdened_waits :
    Unheard χ (Node.Burdened command 8) (Node.Burdened command 8) (.tick 7) := by
  rintro _ ⟨n, k, hk, rfl⟩
  exact ⟨_, [], none, rfl, ⟨n, k, hk, rfl⟩, by simp [Node.crowned, UInt64.size], by simp⟩

end Burdened

namespace Cluster

def pair : ClusterConfig := ⟨2, 0, .none, (2, 2), 2⟩

def rigid : Cluster OneTick := (Cluster.new pair).toOption.get (by decide +kernel)

def acclamation : List Op := [.crash 1] ++ steps 2 ++ [.restart 1] ++ steps 2

/-- Node 0 has just won term 1. -/
def acclaimed : Cluster OneTick := (exec next rigid acclamation).get (by decide +kernel)

/-- Its no-op has just arrived. -/
def heeded : Cluster OneTick := (exec next acclaimed (steps 1)).get (by decide +kernel)

end Cluster

theorem acclaimed_heartbeat : HeartbeatRound OneTick.fixedDelay pair 0 1 acclaimed heeded where
  up i hi := Option.isSome_iff_exists.mp
    ((by decide +kernel : ∀ i < pair.n, (acclaimed.nodes i).isSome) i hi)
  unblocked := by decide +kernel
  led := by decide +kernel
  broadcast p hp hne := Channel.Timing.exists_sent
    ((by decide +kernel : ∀ p < pair.n, p ≠ 0 →
      ∃ d ∈ OneTick.fixedDelay.sends (acclaimed.links 0 p), d.1 = acclaimed.now ∧
        ((Channel.read OneTick d.2).any fun m => decide (m.Appends 1)) = true) p hp hne)
  elapsed := by decide +kernel
  leads := by decide +kernel
  others p hp hne := by
    have hfollows : ∀ p < pair.n, p ≠ 0 → heeded.InRole p 1 .follower := by decide +kernel
    obtain ⟨n, hn, hterm, _⟩ := hfollows p hp hne
    exact ⟨n, hn, hterm⟩
  flight i hi j hj _ _ _ hm _ := Channel.Timing.forall_sent
    ((by decide +kernel : ∀ i < pair.n, ∀ j < pair.n,
      ∀ d ∈ OneTick.fixedDelay.sends (heeded.links i j),
        ((Channel.read OneTick d.2).all fun m => decide (m.term ≤ 1)) = true) i hi j hj) hm

theorem Node.eq_crowned {n : Node Disk} (hcfg : n.cfg.id = 0 ∧ n.cfg.clusterSize = 2 ∧
    n.cfg.heartbeatInterval = 2 ∧ n.cfg.maxBatch = 32) (hterm : n.term = 1)
    (hlog : n.log = [⟨1, []⟩]) (hrole : n.role = .leader) (hcommit : n.commitIndex = 0)
    (hnext : n.nextIndex = [1, 1]) (hmatch : n.matchIndex = [0, 0])
    (hdue : n.heartbeatDeadline = 6) : n = n.crowned [⟨1, []⟩] 1 0 0 6 := by
  obtain ⟨hid, hsize, hinterval, hbatch⟩ := hcfg
  rcases n with ⟨⟨_, _, _, _, _, _⟩, _, _, _, _, _, _, _, _, _, _, _, _, _, _⟩
  simp only at hid hsize hinterval hbatch hterm hlog hrole hcommit hnext hmatch hdue
  subst hid hsize hinterval hbatch hterm hlog hrole hcommit hnext hmatch hdue
  rfl

theorem heeded_mute {f : Node Disk} (hf : heeded.nodes 1 = some f) : Mute OneTick.fixedDelay
    (fun l => ∃ n : Node Disk, l = n.crowned [⟨1, []⟩] 1 0 0 6) f 5 heeded where
  now := by decide +kernel
  size := by decide +kernel
  leader := by
    obtain ⟨l, hl⟩ : ∃ l, heeded.nodes 0 = some l :=
      Option.isSome_iff_exists.mp (by decide +kernel)
    have hleads : ∀ l ∈ heeded.nodes 0, (l.cfg.id = 0 ∧ l.cfg.clusterSize = 2 ∧
        l.cfg.heartbeatInterval = 2 ∧ l.cfg.maxBatch = 32) ∧ l.term = 1 ∧ l.log = [⟨1, []⟩] ∧
        l.role = .leader ∧ l.commitIndex = 0 ∧ l.nextIndex = [1, 1] ∧ l.matchIndex = [0, 0] ∧
        l.heartbeatDeadline = 6 := by
      decide +kernel
    obtain ⟨hcfg, hterm, hlog, hrole, hcommit, hnext, hmatch, hdue⟩ := hleads l hl
    exact ⟨l, hl, l, Node.eq_crowned hcfg hterm hlog hrole hcommit hnext hmatch hdue⟩
  peer := hf
  clock := by decide +kernel
  silent := by
    have hsent : ∀ d ∈ OneTick.fixedDelay.sends (heeded.links 0 1), d.1 < 5 := by decide +kernel
    rintro stamp m ⟨b, hb, _⟩
    exact hsent (stamp, b) hb
  answers := by
    have hsent : ∀ d ∈ OneTick.fixedDelay.sends (heeded.links 1 0), d.1 ≤ 5 ∧ (d.1 = 5 →
        ((Channel.read OneTick d.2).all fun m =>
          decide (m = .appendResponse 1 true 1)) = true) := by
      decide +kernel
    rintro stamp m ⟨b, hb, hread⟩
    obtain ⟨hle, hall⟩ := hsent (stamp, b) hb
    refine ⟨hle, fun hstamp => ?_⟩
    have hfive := hall hstamp
    rw [hread, Option.all_some] at hfive
    exact of_decide_eq_true hfive

/-- The peer waits at tick 6 and stands for election at tick 7. -/
theorem heeded_peer : ∃ f : Node Disk, heeded.nodes 1 = some f ∧ f.tick 6 = .ok (f, []) ∧
    f.log.length < UInt64.size ∧ ∃ f' out, f.tick 7 = .ok (f', out) ∧
      f'.log.length < UInt64.size ∧ f'.term = 2 ∧ f'.role = .candidate := by
  obtain ⟨f, hf⟩ : ∃ f, heeded.nodes 1 = some f := Option.isSome_iff_exists.mp (by decide +kernel)
  have hfollows : ∀ f ∈ heeded.nodes 1, f.role = .follower ∧ f.electionDeadline = 7 ∧
      f.log.length < UInt64.size ∧ (f.tick 7).toOption.any (fun r =>
        decide (r.1.log.length < UInt64.size ∧ r.1.term = 2 ∧ r.1.role = .candidate)) = true := by
    decide +kernel
  obtain ⟨hrole, hdeadline, hlog, hany⟩ := hfollows f hf
  have hwait : f.tick 6 = .ok (f, []) := by
    simp only [Node.tick, hrole, hdeadline]
    rfl
  obtain ⟨⟨f', out⟩, htick, hcampaign⟩ := (Option.any_eq_true _ _).mp hany
  have htick : f.tick 7 = .ok (f', out) := by
    cases hr : f.tick 7 with
    | ok r =>
      rw [hr] at htick
      exact congrArg Except.ok (Option.some.inj htick)
    | error e =>
      rw [hr] at htick
      cases htick
  exact ⟨f, hf, hwait, hlog, f', out, htick, of_decide_eq_true hcampaign⟩

/-- No batch with the command can be read, so two ticks later the peer stands for election. -/
theorem heeded_campaigns {command : List UInt8} (hlen : UInt32.size ≤ command.length) :
    ∃ c, exec next heeded (.propose command :: steps 2) = some c ∧ c.InRole 1 2 .candidate := by
  have hnow : heeded.now = 5 := by decide +kernel
  have hframe := OneTick.fixedDelay.frames
  obtain ⟨f, hf, hwait, hlog, f', out, hcampaign, hlog', hterm, hrole⟩ := heeded_peer
  have hmute := heeded_mute hf
  obtain ⟨l, hl, _⟩ := hmute.leader
  obtain ⟨c₁, hserve, h₁⟩ := hmute.served (propose_burdens hframe hlen)
  rw [← hnow] at hserve
  obtain ⟨_, haccepted⟩ := serve_proposes (by decide +kernel : heeded.leader = some 0) hl hserve
  have hpropose := propose_next haccepted
  obtain ⟨c₂, hfirst, -, h₂⟩ := h₁.stepped le_rfl (by decide)
    (fun _ => burdened_handle hframe hlen) (burdened_tick hframe hlen) hwait hlog
  obtain ⟨c₃, hsecond, hnode, -⟩ := (h₂ rfl rfl).stepped (by decide) (by decide)
    (fun h => by cases h) burdened_waits hcampaign hlog'
  exact ⟨c₃, exec_cons_eq_some.mpr ⟨c₁, hpropose, exec_cons_eq_some.mpr ⟨c₂, hfirst,
    exec_cons_eq_some.mpr ⟨c₃, hsecond, rfl⟩⟩⟩, f', hnode, hterm, hrole⟩

end Oversized

def Cluster.gigantic : List Op := .propose (List.replicate UInt32.size 0) :: steps 2

/-- A proposal of `2 ^ 32` bytes to a leader that its peer has just heard of. -/
theorem oversized_command_deposes :
    pair.heartbeatInterval ≤ pair.electionTimeout.1 ∧ Cluster.new pair = .ok rigid ∧
      exec next rigid acclamation = some acclaimed ∧
      exec next acclaimed (steps 1) = some heeded ∧
      HeartbeatRound OneTick.fixedDelay pair 0 1 acclaimed heeded ∧
      Throughout next Undisturbed acclaimed (steps 1 ++ gigantic) ∧
      ∃ c, exec next heeded gigantic = some c ∧ c.InRole 1 2 .candidate ∧
        ¬ c.InRole 1 1 .follower := by
  have hu : Throughout next Undisturbed acclaimed (steps 1 ++ gigantic) := by
    intro ys op hpre c _
    have hmem : op ∈ steps 1 ++ gigantic := hpre.subset (by simp)
    have hall : ∀ op ∈ steps 1 ++ gigantic, c.Undisturbed op := by
      simp [gigantic, steps, Undisturbed, Uneventful, still]
    exact hall op hmem
  have hlen : UInt32.size ≤ (List.replicate UInt32.size (0 : UInt8)).length :=
    List.length_replicate.ge
  obtain ⟨c, hexec, hcandidate⟩ := heeded_campaigns hlen
  refine ⟨by decide, Checked.eq_ok_get _, (Option.some_get _).symm, (Option.some_get _).symm,
    acclaimed_heartbeat, hu, c, hexec, hcandidate, ?_⟩
  rintro ⟨n, hn, hterm, _⟩
  obtain ⟨n', hn', hterm', _⟩ := hcandidate
  cases hn.symm.trans hn'
  omega

end Landsraad
