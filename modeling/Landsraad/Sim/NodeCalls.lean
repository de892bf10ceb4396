import Landsraad.Raft.Timers
import Landsraad.Sim.Punctuality

/-!
# The node calls of a step

A step that crashes no node goes from one cluster to the next by calls of nodes whose messages
are routed: first one call for each arrival, then the timers.
-/

namespace Landsraad

open Cluster Run

variable {χ : Type} [Channel χ] {baseDelay : Nat} {T : Channel.Timing χ baseDelay}
  {c c' : Cluster χ} {i : Nat} {n n' : Node Disk} {out : List Outgoing}

/-- A node is called and its messages are routed; a node that is down is passed over. -/
def Cluster.serve (c : Cluster χ) (a : Nat × Call) : Option (Cluster χ) :=
  match c.nodes a.1 with
  | none => some c
  | some n =>
    match sized (n.call a.2) with
    | .ok (n', out, _) => some ((c.setNode a.1 (some n')).route a.1 out)
    | .error _ => none

/-- The messages that the codec reads from the arrivals. -/
def heard (χ : Type) [Channel χ] (arrivals : List (Nat × Nat × List UInt8)) :
    List (Nat × Nat × Message) :=
  arrivals.filterMap fun a => (Channel.read χ a.2.2).map fun msg => (a.1, a.2.1, msg)

/-- The calls that arrivals lead to at the tick `now`. -/
def received (χ : Type) [Channel χ] (now : Nat) (arrivals : List (Nat × Nat × List UInt8)) :
    List (Nat × Call) :=
  (heard χ arrivals).map fun a => (a.2.1, .handle now a.1 a.2.2)

/-- No node crashes after the handling of an arrival. -/
def Uneventful (f : Faults) (d : Draws) : Prop :=
  ∀ k, (f.crashAfterEvent && d.crashAfterEvent k) = false

theorem serve_up {call : Call} (hn : c.nodes i = some n) (h : c.serve (i, call) = some c') :
    ∃ n' out answer, n.call call = .ok (n', out, answer) ∧ n'.log.length < UInt64.size ∧
      c' = (c.setNode i (some n')).route i out := by
  simp only [serve, hn] at h
  split at h
  · next n' out answer hcall =>
    cases h
    obtain ⟨hcall, hlen⟩ := sized_ok hcall
    exact ⟨n', out, answer, hcall, hlen, rfl⟩
  · cases h

theorem serve_routed {call : Call} (hn : c.nodes i = some n) (h : c.serve (i, call) = some c') :
    ∃ n' out answer, n.call call = .ok (n', out, answer) ∧ n'.log.length < UInt64.size ∧
      Routed T (c.setNode i (some n')) i out c' := by
  obtain ⟨n', out, answer, hcall, hlen, rfl⟩ := serve_up hn h
  exact ⟨n', out, answer, hcall, hlen, route_routed _ i out⟩

theorem serve_sends {a : Nat × Call} (hs : c.serve a = some c') (x y : Nat) :
    T.sends (c.links x y) ⊆ T.sends (c'.links x y) := by
  cases hn : c.nodes a.1 with
  | none =>
    simp only [serve, hn] at hs
    cases hs
    exact List.Subset.refl _
  | some n =>
    obtain ⟨n', out, answer, _, _, hr⟩ := serve_routed (T := T) hn hs
    obtain ⟨new, hnew, _⟩ := hr.sends x y
    rw [hnew]
    exact List.subset_append_left _ _

theorem Routed.node_self (h : Routed T (c.setNode i (some n')) i out c') :
    c'.nodes i = some n' := by
  rw [h.nodes]
  simp [setNode]

theorem Routed.node_other (h : Routed T (c.setNode i (some n')) i out c') {j : Nat} (hj : j ≠ i) :
    c'.nodes j = c.nodes j := by
  rw [h.nodes]
  simp [setNode, hj]

theorem Routed.node_cases (h : Routed T (c.setNode i (some n')) i out c') {j : Nat} {m : Node Disk}
    (hm : c'.nodes j = some m) : (j = i ∧ m = n') ∨ (j ≠ i ∧ c.nodes j = some m) := by
  by_cases hj : j = i
  · subst hj
    rw [h.node_self] at hm
    exact .inl ⟨rfl, (Option.some.inj hm).symm⟩
  · rw [h.node_other hj] at hm
    exact .inr ⟨hj, hm⟩

theorem serve_now {a : Nat × Call} (h : c.serve a = some c') : c'.now = c.now := by
  cases hn : c.nodes a.1 with
  | none =>
    simp only [serve, hn] at h
    cases h
    rfl
  | some n =>
    obtain ⟨n', out, answer, _, _, rfl⟩ := serve_up hn h
    exact route_now _ _ _

theorem call_serve {call : Call} {answer : Option Nat} (hn : c.nodes i = some n)
    (h : n.call call = .ok (n', out, answer)) (hlen : n'.log.length < UInt64.size) :
    c.serve (i, call) = some ((c.setNode i (some n')).route i out) := by
  simp [serve, hn, sized_of_ok h hlen]

theorem mem_heard {arrivals : List (Nat × Nat × List UInt8)} {j : Nat} {m : Message} :
    (i, j, m) ∈ heard χ arrivals ↔ ∃ b, (i, j, b) ∈ arrivals ∧ Channel.read χ b = some m := by
  simp only [heard, List.mem_filterMap, Option.map_eq_some_iff]
  constructor
  · rintro ⟨⟨_, _, b⟩, hb, msg, hread, he⟩
    cases he
    exact ⟨b, hb, hread⟩
  · rintro ⟨b, hb, hread⟩
    exact ⟨(i, j, b), hb, m, hread, rfl⟩

theorem mem_received {now : Nat} {arrivals : List (Nat × Nat × List UInt8)} {j : Nat}
    {call : Call} : (j, call) ∈ received χ now arrivals ↔
      ∃ i m, (i, j, m) ∈ heard χ arrivals ∧ call = .handle now i m := by
  simp only [received, List.mem_map]
  constructor
  · rintro ⟨⟨i, _, m⟩, ha, he⟩
    cases he
    exact ⟨i, m, ha, rfl⟩
  · rintro ⟨i, m, ha, rfl⟩
    exact ⟨(i, j, m), ha, rfl⟩

theorem deliver_serves {f : Faults} {d : Draws} {k : Nat}
    {arrivals : List (Nat × Nat × List UInt8)} (hcalm : Uneventful f d)
    (h : deliver f d k arrivals c = .ok c') :
    exec serve c (received χ c.now arrivals) = some c' := by
  induction arrivals generalizing k c with
  | nil =>
    cases h
    rfl
  | cons arrival rest ih =>
    obtain ⟨sender, recipient, datagram⟩ := arrival
    rcases deliver_cons h with ⟨hpassed, h⟩ | ⟨n, msg, n', out, hn, hread, hcall, hlen, h⟩
    · have hrest := ih h
      cases hread : Channel.read χ datagram with
      | none =>
        have hsame : received χ c.now ((sender, recipient, datagram) :: rest) =
            received χ c.now rest := by
          simp [received, heard, hread]
        rw [hsame]
        exact hrest
      | some msg =>
        have hdown : c.nodes recipient = none := hpassed.resolve_right (by simp [hread])
        have hfirst : received χ c.now ((sender, recipient, datagram) :: rest) =
            (recipient, .handle c.now sender msg) :: received χ c.now rest := by
          simp [received, heard, hread]
        rw [hfirst]
        exact exec_cons_eq_some.mpr ⟨c, by simp [serve, hdown], hrest⟩
    · have hno : ¬ (f.crashAfterEvent && d.crashAfterEvent k) = true := by simp [hcalm k]
      rw [if_neg hno] at h
      have hrest := ih h
      rw [route_now] at hrest
      have hfirst : received χ c.now ((sender, recipient, datagram) :: rest) =
          (recipient, .handle c.now sender msg) :: received χ c.now rest := by
        simp [received, heard, hread]
      rw [hfirst]
      exact exec_cons_eq_some.mpr ⟨_, call_serve hn hcall hlen, hrest⟩

theorem timers_serves {ids : List Nat} (h : timers ids c = .ok c') :
    exec serve c (ids.map fun i => (i, .tick c.now)) = some c' := by
  induction ids generalizing c with
  | nil =>
    cases h
    rfl
  | cons i is ih =>
    rcases timers_cons h with ⟨hdown, h⟩ | ⟨n, n', out, hn, hcall, hlen, h⟩
    · have hskip : c.serve (i, .tick c.now) = some c := by simp [serve, hdown]
      exact exec_cons_eq_some.mpr ⟨c, hskip, ih h⟩
    · have hrest := ih h
      rw [route_now] at hrest
      exact exec_cons_eq_some.mpr ⟨_, call_serve hn hcall hlen, hrest⟩

/-- Calls that return are the deliveries of their arrivals. -/
theorem serves_deliver {f : Faults} {d : Draws} {k : Nat}
    {arrivals : List (Nat × Nat × List UInt8)} (hcalm : Uneventful f d)
    (h : exec serve c (received χ c.now arrivals) = some c') :
    deliver f d k arrivals c = .ok c' := by
  induction arrivals generalizing k c with
  | nil =>
    cases h
    rfl
  | cons arrival rest ih =>
    obtain ⟨sender, recipient, datagram⟩ := arrival
    obtain ⟨r, hr⟩ := decodeMessage_returns (Channel.frames χ) datagram
    cases r with
    | error e =>
      have hrest : exec serve c (received χ c.now rest) = some c' := by
        simpa [received, heard, Channel.read, hr] using h
      cases hn : c.nodes recipient <;> simp [deliver, hn, hr, ih hrest]
    | ok msg =>
      have hread := read_eq_some.mpr hr
      simp only [received, heard, List.filterMap_cons, hread, Option.map_some,
        List.map_cons] at h
      obtain ⟨c₁, hserve, hrest⟩ := exec_cons_eq_some.mp h
      cases hn : c.nodes recipient with
      | none =>
        simp only [serve, hn] at hserve
        cases hserve
        simp only [deliver, hn]
        exact ih hrest
      | some n =>
        obtain ⟨n', out, answer, hcall, hlen, rfl⟩ := serve_up hn hserve
        obtain ⟨hhandle, _⟩ := Node.call_handle_ok hcall
        have hcrash : (f.crashAfterEvent && d.crashAfterEvent k) = false := hcalm k
        have hlater : deliver f d (k + 1) rest
            ((c.setNode recipient (some n')).route recipient out) = .ok c' := by
          apply ih
          rw [route_now]
          exact hrest
        simp [deliver, hn, hr, sized_of_ok hhandle hlen, hcrash, hlater]

theorem serves_timers {ids : List Nat}
    (h : exec serve c (ids.map fun i => (i, .tick c.now)) = some c') : timers ids c = .ok c' := by
  induction ids generalizing c with
  | nil =>
    cases h
    rfl
  | cons i is ih =>
    obtain ⟨c₁, hserve, hrest⟩ := exec_cons_eq_some.mp h
    cases hn : c.nodes i with
    | none =>
      simp only [serve, hn] at hserve
      cases hserve
      simp only [timers, hn]
      exact ih hrest
    | some n =>
      obtain ⟨n', out, answer, hcall, hlen, rfl⟩ := serve_up hn hserve
      obtain ⟨htick, _⟩ := Node.call_tick_ok hcall
      have hlater : timers is ((c.setNode i (some n')).route i out) = .ok c' := by
        apply ih
        rw [route_now]
        exact hrest
      simp [timers, hn, sized_of_ok htick hlen, hlater]

/-- A step goes to its end where every part of it does. -/
theorem next_step {d : Draws} {c₁ c₂ c₃ : Cluster χ} (hi : c.injected d = .ok (c₁, .ok ()))
    (hd : deliver c.cfg.faults d 0 c₁.advanceLinks.2 c₁.advanceLinks.1 = .ok c₂)
    (ht : timers (List.range c₂.cfg.n) c₂ = .ok c₃) :
    c.next (.step d) = some c₃.checkInvariants.1 := by
  have hexchange : c₁.exchange c.cfg.faults d = .ok c₃ := Checked.bind_eq_ok.mpr ⟨c₂, hd, ht⟩
  have hadvance : c.advance d = .ok (c₃, .ok ()) := by
    rw [advance_eq, hi]
    exact Checked.bind_eq_ok.mpr ⟨_, rfl, Checked.bind_eq_ok.mpr ⟨c₃, hexchange, rfl⟩⟩
  have hstep : c.apply (.step d) = .ok c₃.checkInvariants :=
    Checked.bind_eq_ok.mpr ⟨_, hadvance, rfl⟩
  simp [next, hstep]

/-- A proposal is a call of a live node, or finds no leader. -/
theorem propose_serves {command : List UInt8} {r : Except ProposeError (Nat × Nat)}
    (h : c.propose command = .ok (c', r)) :
    c' = c ∨ ∃ l n, c.leader = some l ∧ c.nodes l = some n ∧
      c.serve (l, .propose c.now command) = some c' := by
  rcases propose_cases h with rfl | ⟨l, n, n', out, answer, hl, hn, hcall, hlen, rfl⟩
  · exact .inl rfl
  · exact .inr ⟨l, n, hl, hn, call_serve hn hcall hlen⟩

/-- A call of the leader that returns is a proposal. -/
theorem serve_proposes {command : List UInt8} {l : Nat} {n : Node Disk} (hl : c.leader = some l)
    (hn : c.nodes l = some n) (h : c.serve (l, .propose c.now command) = some c') :
    ∃ r, c.propose command = .ok (c', r) := by
  obtain ⟨n', out, answer, hcall, hlen, rfl⟩ := serve_up hn h
  obtain ⟨r, hpropose, rfl, rfl⟩ := Node.call_propose_ok hcall
  cases r with
  | error e =>
    refine ⟨.error e, ?_⟩
    simp only [propose, hl, hn, sized_of_ok hpropose hlen, Checked.ok_bind]
    rfl
  | ok accepted =>
    refine ⟨.ok (l, accepted.1), ?_⟩
    simp only [propose, hl, hn, sized_of_ok hpropose hlen, Checked.ok_bind]
    rfl

theorem propose_next {command : List UInt8} {r : Except ProposeError (Nat × Nat)}
    (h : c.propose command = .ok (c', r)) : c.next (.propose command) = some c' := by
  have hstep : c.apply (.propose command) = .ok (c', .ok ()) :=
    Checked.bind_eq_ok.mpr ⟨_, h, rfl⟩
  simp [next, hstep]

omit [Channel χ] in
theorem leaderAmong_up {ids : List Nat} {best : Option (Node Disk)}
    (hbest : ∀ m ∈ best, ∃ j, c.nodes j = some m) (h : c.leaderAmong ids best = some n) :
    ∃ j, c.nodes j = some n := by
  induction ids generalizing best with
  | nil => exact hbest n h
  | cons i is ih =>
    unfold leaderAmong at h
    split at h
    · exact ih hbest h
    · next m hm =>
      refine ih (fun m' hm' => ?_) h
      split at hm'
      · exact ⟨i, hm.trans hm'⟩
      · cases hm'
    · next m b hm =>
      refine ih (fun m' hm' => ?_) h
      split at hm'
      · exact ⟨i, hm.trans hm'⟩
      · exact hbest m' hm'

/-! ## What holds of every node in every run -/

/-- The node has its place and its timing from the configuration of the cluster. -/
structure Fitted (cfg : ClusterConfig) (i : Nat) (n : Node Disk) : Prop where
  lt : i < cfg.n
  id : n.cfg.id = i
  size : n.cfg.clusterSize = cfg.n
  timeout : n.cfg.electionTimeout = cfg.electionTimeout
  interval : n.cfg.heartbeatInterval = cfg.heartbeatInterval
  patient : 0 < cfg.electionTimeout.1

theorem Fitted.of_cfg {cfg : ClusterConfig} (h : Fitted cfg i n) (hcfg : n'.cfg = n.cfg) :
    Fitted cfg i n' := by
  refine ⟨h.lt, ?_, ?_, ?_, ?_, h.patient⟩ <;> rw [hcfg]
  · exact h.id
  · exact h.size
  · exact h.timeout
  · exact h.interval

/-- Every node is fitted, no leader lets a heartbeat wait for longer than an interval, and no more
commands were injected than ticks have passed. -/
structure Regular {χ : Type} (cfg : ClusterConfig) (c : Cluster χ) : Prop where
  size : c.cfg.n = cfg.n
  timeout : c.cfg.electionTimeout = cfg.electionTimeout
  interval : c.cfg.heartbeatInterval = cfg.heartbeatInterval
  node : ∀ i n, c.nodes i = some n → Fitted cfg i n
  due : ∀ i n, c.nodes i = some n → n.role = .leader →
    n.heartbeatDeadline ≤ c.now + cfg.heartbeatInterval
  count : c.nextCommand.toNat ≤ c.now

section Regular

variable {cfg : ClusterConfig}

omit [Channel χ] in
/-- Nodes may go and time may pass. -/
theorem Regular.of_le (h : Regular cfg c) (hcfg : c'.cfg.n = c.cfg.n ∧
    c'.cfg.electionTimeout = c.cfg.electionTimeout ∧
    c'.cfg.heartbeatInterval = c.cfg.heartbeatInterval)
    (hnodes : ∀ i n, c'.nodes i = some n → c.nodes i = some n) (hnow : c.now ≤ c'.now)
    (hcount : c'.nextCommand.toNat ≤ c'.now) : Regular cfg c' where
  size := hcfg.1.trans h.size
  timeout := hcfg.2.1.trans h.timeout
  interval := hcfg.2.2.trans h.interval
  node i n hn := h.node i n (hnodes i n hn)
  due i n hn hl := (h.due i n (hnodes i n hn) hl).trans (Nat.add_le_add_right hnow _)
  count := hcount

omit [Channel χ] in
theorem Regular.setNode (h : Regular cfg c) (hfit : Fitted cfg i n)
    (hdue : n.role = .leader → n.heartbeatDeadline ≤ c.now + cfg.heartbeatInterval) :
    Regular cfg (c.setNode i (some n)) := by
  have hcase : ∀ j m, (c.setNode i (some n)).nodes j = some m →
      (j = i ∧ m = n) ∨ c.nodes j = some m := by
    intro j m hm
    by_cases hj : j = i
    · subst hj
      have hm : some n = some m := by simpa [Cluster.setNode] using hm
      exact .inl ⟨rfl, (Option.some.inj hm).symm⟩
    · exact .inr (by simpa [Cluster.setNode, hj] using hm)
  refine ⟨h.size, h.timeout, h.interval, fun j m hm => ?_, fun j m hm => ?_, h.count⟩
  · rcases hcase j m hm with ⟨rfl, rfl⟩ | hm
    · exact hfit
    · exact h.node j m hm
  · rcases hcase j m hm with ⟨rfl, rfl⟩ | hm
    · exact hdue
    · exact h.due j m hm

omit [Channel χ] in
theorem Regular.called (h : Regular cfg c) {call : Call} {answer : Option Nat}
    (hn : c.nodes i = some n) (hcall : n.call call = .ok (n', out, answer))
    (hnow : call.now = c.now) : Regular cfg (c.setNode i (some n')) := by
  have ht := Node.call_timed hcall
  have hfit := h.node i n hn
  refine h.setNode (hfit.of_cfg ht.cfg) fun hl => ?_
  rcases ht.heartbeat hl with ⟨hleads, hsame⟩ | hdue
  · rw [hsame]
    exact h.due i n hn hleads
  · rw [hdue, hnow, hfit.interval]

theorem Regular.route (h : Regular cfg c) (i : Nat) (out : List Outgoing) :
    Regular cfg (c.route i out) := by
  obtain ⟨links, hlinks⟩ := route_eq c i out
  rw [hlinks]
  exact h.of_le ⟨rfl, rfl, rfl⟩ (fun _ _ hn => hn) le_rfl h.count

theorem Regular.serve (h : Regular cfg c) {a : Nat × Call} (hnow : a.2.now = c.now)
    (hs : c.serve a = some c') : Regular cfg c' := by
  cases hn : c.nodes a.1 with
  | none =>
    simp only [Cluster.serve, hn] at hs
    cases hs
    exact h
  | some n =>
    obtain ⟨n', out, answer, hcall, _, rfl⟩ := serve_up hn hs
    exact (h.called hn hcall hnow).route _ _

omit [Channel χ] in
theorem Regular.crash (h : Regular cfg c) (i : Nat) : Regular cfg (c.crash i) := by
  unfold Cluster.crash
  split
  · exact h
  · refine h.of_le ⟨rfl, rfl, rfl⟩ (fun j m hm => ?_) le_rfl h.count
    by_cases hj : j = i
    · subst hj
      simp [Cluster.setNode] at hm
    · simpa [Cluster.setNode, hj] using hm

omit [Channel χ] in
theorem Regular.boot (h : Regular cfg c) (hb : c.boot i = .ok c') : Regular cfg c' := by
  obtain ⟨n, hnew, hb⟩ := Checked.bind_eq_ok.mp hb
  cases hb
  have hpatient := (Node.new_timeout hnew).1
  obtain ⟨hlt, deadline, rng, rfl⟩ := Node.new_ok hnew
  refine h.setNode ⟨h.size ▸ hlt, rfl, h.size, h.timeout, h.interval, ?_⟩ fun hl => nomatch hl
  rw [← h.timeout]
  exact hpatient

omit [Channel χ] in
theorem Regular.bootAll {ids : List Nat} (h : Regular cfg c) (hb : bootAll ids c = .ok c') :
    Regular cfg c' := by
  induction ids generalizing c with
  | nil =>
    cases hb
    exact h
  | cons i is ih =>
    obtain ⟨c₁, hboot, hb⟩ := Checked.bind_eq_ok.mp hb
    exact ih (h.boot hboot) hb

omit [Channel χ] in
theorem Regular.restart (h : Regular cfg c) {r : Except Violation Unit}
    (hr : c.restart i = .ok (c', r)) : Regular cfg c' := by
  unfold Cluster.restart at hr
  split at hr
  · cases hr
    exact h
  obtain ⟨c₁, hboot, hr⟩ := Checked.bind_eq_ok.mp hr
  dsimp only at hr
  split at hr
  · cases hr
  · split at hr <;> cases hr <;> exact h.boot hboot

omit [Channel χ] in
theorem Regular.restartAll {ids : List Nat} (h : Regular cfg c) {r : Except Violation Unit}
    (hr : restartAll ids c = .ok (c', r)) : Regular cfg c' := by
  induction ids generalizing c with
  | nil =>
    cases hr
    exact h
  | cons i is ih =>
    obtain ⟨⟨c₁, r₁⟩, hi, hr⟩ := Checked.bind_eq_ok.mp hr
    cases r₁ with
    | ok u => exact ih (h.restart hi) hr
    | error v =>
      cases hr
      exact h.restart hi

theorem Regular.propose (h : Regular cfg c) {command : List UInt8}
    {r : Except ProposeError (Nat × Nat)} (hp : c.propose command = .ok (c', r)) :
    Regular cfg c' := by
  rcases propose_serves hp with rfl | ⟨l, n, _, _, hs⟩
  · exact h
  · exact h.serve rfl hs

omit [Channel χ] in
theorem Regular.leader_up (h : Regular cfg c) {l : Nat} (hl : c.leader = some l) :
    ∃ n, c.nodes l = some n := by
  obtain ⟨n, hn, rfl⟩ := Option.map_eq_some_iff.mp hl
  obtain ⟨j, hj⟩ := leaderAmong_up (by simp) hn
  rw [(h.node j n hj).id]
  exact ⟨n, hj⟩

/-- A proposal returns where the call of its node does. -/
theorem Regular.proposes (h : Regular cfg c) {command : List UInt8}
    (hserve : ∀ l n, c.nodes l = some n →
      ∃ c', c.serve (l, .propose c.now command) = some c') :
    ∃ c' r, c.propose command = .ok (c', r) := by
  cases hl : c.leader with
  | none =>
    refine ⟨c, .error (.notLeader none), ?_⟩
    simp only [Cluster.propose, hl]
    rfl
  | some l =>
    obtain ⟨n, hn⟩ := h.leader_up hl
    obtain ⟨c', hs⟩ := hserve l n hn
    exact ⟨c', serve_proposes hl hn hs⟩

theorem Regular.deliver {f : Faults} {d : Draws} {k : Nat}
    {arrivals : List (Nat × Nat × List UInt8)} (h : Regular cfg c)
    (hd : deliver f d k arrivals c = .ok c') : Regular cfg c' := by
  induction arrivals generalizing k c with
  | nil =>
    cases hd
    exact h
  | cons arrival rest ih =>
    obtain ⟨sender, recipient, datagram⟩ := arrival
    rcases deliver_cons hd with ⟨_, hd⟩ | ⟨n, msg, n', out, hn, _, hcall, _, hd⟩
    · exact ih h hd
    have hset := h.called hn hcall rfl
    refine ih ?_ hd
    split
    · exact hset.crash recipient
    · exact hset.route recipient out

theorem Regular.timers {ids : List Nat} (h : Regular cfg c) (ht : timers ids c = .ok c') :
    Regular cfg c' := by
  have hrun : Regular cfg c' ∧ c'.now = c.now := by
    refine exec_induction (P := fun c' => Regular cfg c' ∧ c'.now = c.now) ⟨h, rfl⟩ ?_
      (timers_serves ht)
    intro c₁ c₂ a ha hc₁ hs
    obtain ⟨i, _, rfl⟩ := List.mem_map.mp ha
    have hnow : (Call.tick c.now).now = c₁.now := hc₁.2.symm
    exact ⟨hc₁.1.serve hnow hs, (serve_now hs).trans hc₁.2⟩
  exact hrun.1

theorem Regular.exchange {f : Faults} {d : Draws} (h : Regular cfg c)
    (he : c.exchange f d = .ok c') : Regular cfg c' := by
  obtain ⟨c₁, hdeliver, htimers⟩ := Checked.bind_eq_ok.mp he
  have hlinks : Regular cfg c.advanceLinks.1 :=
    h.of_le ⟨rfl, rfl, rfl⟩ (fun _ _ hn => hn) le_rfl h.count
  exact (hlinks.deliver hdeliver).timers htimers

omit [Channel χ] in
theorem Regular.injectCrashes {f : Faults} {d : Draws} {r : Except Violation Unit}
    (h : Regular cfg c) (hr : c.injectCrashes f d = .ok (c', r)) : Regular cfg c' := by
  obtain ⟨c₁, hcrash, hr⟩ := Checked.bind_eq_ok.mp hr
  have hcrashed : Regular cfg c₁ := by
    split at hcrash
    · obtain ⟨i, _, rfl⟩ := Checked.map_eq_ok.mp hcrash
      exact h.crash i
    · cases hcrash
      exact h
  split at hr
  · obtain ⟨i, _, hr⟩ := Checked.bind_eq_ok.mp hr
    exact hcrashed.restart hr
  · cases hr
    exact hcrashed

omit [Channel χ] in
theorem Regular.alike (h : Regular cfg c) (ha : Alike c c') : Regular cfg c' := by
  refine h.of_le ⟨?_, ?_, ?_⟩ (fun i n hn => ?_) ha.now.ge ?_
  · rw [ha.cfg]
  · rw [ha.cfg]
  · rw [ha.cfg]
  · rwa [ha.nodes] at hn
  · rw [ha.count, ha.now]
    exact h.count

theorem Regular.injectRest {f : Faults} {d : Draws} (h : Regular cfg c)
    (hcount : c.nextCommand.toNat < c.now) (hr : c.injectRest f d = .ok c') : Regular cfg c' := by
  have hnet : Regular cfg (c.network f d) := by
    unfold Cluster.network
    dsimp only
    split <;> split <;> exact h.of_le ⟨rfl, rfl, rfl⟩ (fun _ _ hn => hn) le_rfl h.count
  rcases injectRest_cases hr with ⟨_, rfl⟩ | ⟨_, command, c₁, r, count, _, hle, hp, rfl⟩
  · exact hnet
  · have hunrouted := network_unrouted c f d
    obtain ⟨hnow, hsame⟩ := propose_clocks hp
    refine (hnet.propose hp).of_le ⟨rfl, rfl, rfl⟩ (fun _ _ hn => hn) le_rfl ?_
    rw [hsame, hunrouted.count] at hle
    have hclock : c₁.now = c.now := hnow.trans hunrouted.now
    exact (hle.trans hcount).trans hclock.ge

theorem Regular.injected {d : Draws} {r : Except Violation Unit} (h : Regular cfg c)
    (hr : c.injected d = .ok (c', r)) : Regular cfg c' := by
  obtain ⟨now, hnow, hr⟩ := Checked.bind_eq_ok.mp hr
  obtain ⟨_, rfl⟩ := Checked.add_eq_ok.mp hnow
  obtain ⟨⟨c₁, r₁⟩, hcrash, hr⟩ := Checked.bind_eq_ok.mp hr
  have hlater : Regular cfg { c with now := c.now + 1 } :=
    h.of_le ⟨rfl, rfl, rfl⟩ (fun _ _ hn => hn) (Nat.le_succ c.now)
      (h.count.trans (Nat.le_succ c.now))
  have hcrashed := hlater.injectCrashes hcrash
  cases r₁ with
  | error v =>
    cases hr
    exact hcrashed
  | ok u =>
    obtain ⟨c₂, hrest, hr⟩ := Checked.bind_eq_ok.mp hr
    cases hr
    have hunrouted := injectCrashes_unrouted hcrash
    refine hcrashed.injectRest ?_ hrest
    rw [hunrouted.count, hunrouted.now]
    exact Nat.lt_succ_of_le h.count

/-- Every call keeps the nodes regular. -/
theorem Regular.apply {op : Op} {r : Except Violation Unit} (h : Regular cfg c)
    (hr : c.apply op = .ok (c', r)) : Regular cfg c' := by
  by_cases hstep : ∃ d, op = .step d
  · obtain ⟨d, rfl⟩ := hstep
    rcases step_cases hr with ⟨v, hinjected, _⟩ | ⟨c₁, c₂, hinjected, hexchange, halike⟩
    · exact h.injected hinjected
    · exact ((h.injected hinjected).exchange hexchange).alike halike
  · rcases apply_cases (not_exists.mp hstep) hr with
      ⟨_, ⟨i, rfl⟩ | ⟨b, rfl⟩ | ⟨command, a, _, hp⟩⟩ | ⟨i, hr⟩ | hr
    · exact h.crash i
    · exact h.of_le ⟨rfl, rfl, rfl⟩ (fun _ _ hn => hn) le_rfl h.count
    · exact h.propose hp
    · exact h.restart hr
    · have hstart : Regular cfg
          ({ c with cfg := { c.cfg with faults := .none } } : Cluster χ).heal :=
        h.of_le ⟨rfl, rfl, rfl⟩ (fun _ _ hn => hn) le_rfl h.count
      exact hstart.restartAll hr

theorem new_regular (h : Cluster.new cfg = .ok c) : Regular cfg c := by
  refine Regular.bootAll ?_ h
  refine ⟨rfl, rfl, rfl, fun i n hn => ?_, fun i n hn => ?_, Nat.zero_le _⟩ <;> cases hn

/-- Whatever faults a run had, its nodes are regular. -/
theorem exec_regular {ops : List Op} (h : Regular cfg c) (hrun : exec next c ops = some c') :
    Regular cfg c' := by
  refine exec_induction h (fun c₁ c₂ op _ h₁ hn => ?_) hrun
  obtain ⟨r, hr⟩ := next_eq_some hn
  exact h₁.apply hr

end Regular

end Landsraad
