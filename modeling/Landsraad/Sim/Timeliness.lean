import Landsraad.Raft.Pursuit
import Landsraad.Sim.Endurance

/-!
# Replication in time

Over links of a fixed delay and under a stable leader, a pursuit gets on by one hop in every
delay. With no further proposal, every node therefore holds the log of the leader, and then has
committed all of it, within a number of ticks that the length of the log and the delay determine.
-/

namespace Landsraad

open Cluster Run

variable {χ : Type} [Channel χ] {delay : Nat} {T : Channel.Timing χ delay} {cfg : ClusterConfig}
  {c c' base : Cluster χ} {term L i j k τ due start : Nat} {log : List Entry} {s s' : System}
  {n l l' : Node Disk} {P : Pursuit cfg.n term L log}

/-! ## One call -/

theorem Mirrors.node {carried : χ → List UInt8 → Prop} (h : Mirrors carried c s) (i : Nat) :
    s.node i = c.nodes i := by
  cases hn : c.nodes i <;> simp [System.node, h.slots, Cluster.slot, hn]

theorem Mirrors.served (hT : Channel.Faithful χ T.Carried) {call : Call}
    (h : Mirrors T.Carried c s) (hn : c.nodes i = some n) (hd : s.Deliverable i call)
    (hc : call.Encodable) (hs : c.serve (i, call) = some c') :
    ∃ n' out answer s', n.call call = .ok (n', out, answer) ∧
      Routed T (c.setNode i (some n')) i out c' ∧ (∀ o ∈ out, o.message.Encodable) ∧
      s.perform c.cfg.n (.call i call .returns) = some s' ∧ Mirrors T.Carried c' s' ∧
      s'.sent = s.sent ++ out.map fun o => ⟨i, o.recipient, o.message⟩ := by
  obtain ⟨n', out, answer, hcall, hlen, rfl⟩ := serve_up hn hs
  obtain ⟨s', hrun, hslots, hsent⟩ := call_runs h hn hcall hd
  rw [System.run, exec_singleton] at hrun
  obtain ⟨hn', hout⟩ := (h.encodable hn).call hc hcall hlen
  exact ⟨n', out, answer, s', hcall, route_routed _ i out, hout, hrun,
    h.routed hT hslots hsent hn' hout, hsent⟩

theorem serve_still {call : Call} {answer : Option Nat} (hn : c.nodes i = some n)
    (hcall : n.call call = .ok (n, [], answer)) (hs : c.serve (i, call) = some c') : c' = c := by
  obtain ⟨n', out, answer', hcall', _, rfl⟩ := serve_up hn hs
  rw [hcall] at hcall'
  cases hcall'
  rw [route, setNode, ← hn, Function.update_eq_self]

theorem Routed.carries {n' : Node Disk} {out : List Outgoing} {e : Envelope}
    (hframe : (Channel.frames χ).Faithful) (hfits : ∀ o ∈ out, o.message.Encodable)
    (hr : Routed T (c.setNode i (some n')) i out c') (hconn : Connected T cfg k c)
    (hsent : s'.sent = s.sent ++ out.map fun o => ⟨i, o.recipient, o.message⟩)
    (he : e ∈ s'.sent.drop s.sent.length) (hi : e.sender < cfg.n) (hj : e.recipient < cfg.n)
    (hne : e.sender ≠ e.recipient) :
    T.Sent (c'.links e.sender e.recipient) k e.message := by
  rw [drop_sent hsent] at he
  obtain ⟨o, ho, rfl⟩ := List.mem_map.mp he
  have hreached := hr.reached o ho (hconn.unblocked i hi o.recipient hj)
  have hclock : T.clock ((c.setNode i (some n')).links i o.recipient) = k :=
    hconn.clock i hi o.recipient hj hne
  rw [hclock] at hreached
  exact ⟨_, hreached, read_encode hframe (hfits o ho)⟩

/-! ## What is pursued -/

/-- The cluster mirrors a placid system whose leader is ready for the pursuit. -/
structure Sighted (T : Channel.Timing χ delay) (cfg : ClusterConfig)
    (P : Pursuit cfg.n term L log) (c : Cluster χ) (s : System) (l : Node Disk) : Prop where
  mirrors : Mirrors T.Carried c s
  placid : Placid cfg.n term L log s l
  ready : P.Ready l

/-- From one cluster to another the pursuit has lost no ground. -/
structure Followed (T : Channel.Timing χ delay) (cfg : ClusterConfig)
    (P : Pursuit cfg.n term L log) (c : Cluster χ) (s : System) (l : Node Disk)
    (c' : Cluster χ) (s' : System) (l' : Node Disk) : Prop where
  sighted : Sighted T cfg P c' s' l'
  sent : s.sent ⊆ s'.sent
  links : ∀ x y, T.sends (c.links x y) ⊆ T.sends (c'.links x y)
  done : P.Done s l → P.Done s' l'

/-- A message of the pursuit that has not arrived by tick `k`. It and those that follow it arrive
by the tick `due`. -/
def Onway (T : Channel.Timing χ delay) (P : Pursuit cfg.n term L log) (due k : Nat)
    (c : Cluster χ) (s : System) : Prop :=
  ∃ e stamp w, T.Sent (c.links e.sender e.recipient) stamp e.message ∧ P.Chases s e w ∧
    k < stamp + delay ∧ stamp + delay * w ≤ due

/-- With the links at tick `k` and the timer of `L` not run since `τ`, the pursuit is done, or a
message of it is on its way, or the next heartbeat is not too late. -/
def Pursued (T : Channel.Timing χ delay) (cfg : ClusterConfig) (P : Pursuit cfg.n term L log)
    (due k τ : Nat) (c : Cluster χ) : Prop :=
  ∃ s l, Sighted T cfg P c s l ∧
    (P.Done s l ∨ Onway T P due k c s ∨ max l.heartbeatDeadline τ + delay * P.hops ≤ due)

theorem Onway.followed (h : Onway T P due k c s) (hf : Followed T cfg P c s l c' s' l') :
    Onway T P due k c' s' := by
  obtain ⟨e, stamp, w, hsent, hchases, hk, hdue⟩ := h
  exact ⟨e, stamp, w, hsent.mono (hf.links _ _), P.mono hf.sent hchases, hk, hdue⟩

theorem Pursued.over (h : Pursued T cfg P due k τ c) (hk : due ≤ k) (hτ : k < τ) :
    ∃ s l, Sighted T cfg P c s l ∧ P.Done s l := by
  obtain ⟨s, l, hs, hdone | ⟨e, stamp, w, _, hchases, hlate, hdue⟩ | hwaits⟩ := h
  · exact ⟨s, l, hs, hdone⟩
  · have hpos := Nat.mul_le_mul_left delay (P.pos hchases)
    omega
  · have hlate := le_max_right l.heartbeatDeadline τ
    omega

theorem Pursued.mono {τ' : Nat} (h : Pursued T cfg P due k τ c) (hτ : τ' ≤ τ) :
    Pursued T cfg P due k τ' c := by
  obtain ⟨s, l, hs, hcase⟩ := h
  refine ⟨s, l, hs, hcase.imp id (Or.imp id fun hwaits => ?_)⟩
  have hle := max_le_max (le_refl l.heartbeatDeadline) hτ
  omega

theorem Sighted.pursued (h : Sighted T cfg P c s l) (hregular : Regular cfg c)
    (hdue : c.now + cfg.heartbeatInterval + 1 + delay * P.hops ≤ due) :
    Pursued T cfg P due k (c.now + 1) c := by
  refine ⟨s, l, h, .inr (.inr ?_)⟩
  have hl : c.nodes L = some l := (h.mirrors.node L).symm.trans h.placid.node
  have hsoon := hregular.due L l hl h.placid.role
  omega

/-- The handling of an arrival loses no ground, and where a message of the pursuit has arrived, a
message with fewer hops to go follows it. -/
theorem Sighted.arrival {m : Message} {stamp : Nat} (hT : Channel.Faithful χ T.Carried)
    (h : Sighted T cfg P c s l) (hconn : Connected T cfg k c) (hi : i < cfg.n)
    (hterm : m.term ≤ term) (hin : T.Sent (c.links j i) stamp m)
    (hs : c.serve (i, .handle c.now j m) = some c') :
    ∃ s' l', Followed T cfg P c s l c' s' l' ∧ l'.heartbeatDeadline = l.heartbeatDeadline ∧
      ∀ w, P.Chases s ⟨j, i, m⟩ w → P.Done s' l' ∨ ∃ e w', w' < w ∧ P.Chases s' e w' ∧
        T.Sent (c'.links e.sender e.recipient) k e.message := by
  obtain ⟨n, hn⟩ := hconn.up i hi
  have hdeliverable : s.Deliverable i (.handle c.now j m) := h.mirrors.deliverable hin
  obtain ⟨b, _, hread⟩ := id hin
  obtain ⟨n', out, answer, s', hcall, hr, hfits, hperform, hmirrors, hsent⟩ :=
    h.mirrors.served hT hn hdeliverable (encodable_of_read hread) hs
  rw [hconn.regular.size] at hperform
  obtain ⟨l', hplacid, hkept, hdeadline⟩ := h.placid.handled hterm hperform
  have hturn : Turn cfg.n term L log s l s' l' := ⟨h.placid, hplacid, hkept⟩
  refine ⟨s', l', ⟨⟨hmirrors, hplacid, P.ready hkept h.placid.holds h.ready⟩, ?_,
    serve_sends hs, P.handled hturn h.ready hterm hperform⟩, hdeadline, fun w hw => ?_⟩
  · rw [hsent]
    exact List.subset_append_left _ _
  · refine (P.answered hturn h.ready hperform hw).imp id ?_
    rintro ⟨e, w', he, hlower, hchases⟩
    obtain ⟨hfrom, hto, hdiffer⟩ := P.apart hchases
    exact ⟨e, w', hlower, hchases, hr.carries hT.frames hfits hconn hsent he hfrom hto hdiffer⟩

theorem Pursued.tick (hT : Channel.Faithful χ T.Carried) (h : Pursued T cfg P due k τ c)
    (hconn : Connected T cfg k c) (hd : 0 < delay) (hτ : k ≤ τ)
    (hs : c.serve (L, .tick k) = some c') :
    Pursued T cfg P due k (k + 1) c' := by
  obtain ⟨s, l, hsight, hcase⟩ := h
  have hn : c.nodes L = some l := (hsight.mirrors.node L).symm.trans hsight.placid.node
  have hdeliverable : s.Deliverable L (.tick k) := trivial
  have hc : (Call.tick k).Encodable := trivial
  obtain ⟨n', out, answer, s', hcall, hr, hfits, hperform, hmirrors, hsent⟩ :=
    hsight.mirrors.served hT hn hdeliverable hc hs
  rw [hconn.regular.size] at hperform
  obtain ⟨htick, rfl⟩ := Node.call_tick_ok hcall
  rcases Node.tick_leads hsight.placid.role htick with ⟨hwait, rfl, rfl⟩ | ⟨hfires, _⟩
  · -- the next heartbeat has yet to come
    obtain rfl := serve_still hn hcall hs
    refine ⟨s, n', hsight, hcase.imp id (Or.imp id fun hwaits => ?_)⟩
    have hmax := le_max_left n'.heartbeatDeadline τ
    rw [max_eq_left (Nat.succ_le_of_lt hwait)]
    omega
  · obtain ⟨l', out', hplacid, hkept, hmatch, hcommit, hout, hothers, hsent'⟩ :=
      hsight.placid.beaten hfires hperform
    have hturn : Turn cfg.n term L log s l s' l' := ⟨hsight.placid, hplacid, hkept⟩
    obtain ⟨hdone, hstarts⟩ :=
      P.beaten hturn hsight.ready hmatch hcommit hout hothers hsent'
    have hfollowed : Followed T cfg P c s l c' s' l' := by
      refine ⟨⟨hmirrors, hplacid, P.ready hkept hsight.placid.holds hsight.ready⟩, ?_,
        serve_sends hs, hdone⟩
      rw [hsent]
      exact List.subset_append_left _ _
    refine ⟨s', l', hfollowed.sighted, ?_⟩
    rcases hcase with hold | hold | hwaits
    · exact .inl (hfollowed.done hold)
    · exact .inr (.inl (hold.followed hfollowed))
    · refine hstarts.imp id fun ⟨e, he, hchases⟩ => .inl ?_
      obtain ⟨hfrom, hto, hdiffer⟩ := P.apart hchases
      have hmax := le_max_right l.heartbeatDeadline τ
      exact ⟨e, k, P.hops, hr.carries hT.frames hfits hconn hsent he hfrom hto hdiffer, hchases,
        by omega, by omega⟩

theorem Pursued.arrival {m : Message} {k' stamp : Nat} (hT : Channel.Faithful χ T.Carried)
    (h : Pursued T cfg P due k τ c) (hconn : Connected T cfg k' c) (hi : i < cfg.n)
    (hterm : m.term ≤ term) (hin : T.Sent (c.links j i) stamp m)
    (hs : c.serve (i, .handle c.now j m) = some c') : Pursued T cfg P due k τ c' := by
  obtain ⟨s, l, hsight, hcase⟩ := h
  obtain ⟨s', l', hf, hdeadline, _⟩ := hsight.arrival hT hconn hi hterm hin hs
  rw [← hdeadline] at hcase
  exact ⟨s', l', hf.sighted, hcase.imp hf.done (Or.imp (Onway.followed · hf) id)⟩

theorem Pursued.deliver {arrivals : List (Nat × Nat × List UInt8)} {f : Faults} {d : Draws}
    (hT : Channel.Faithful χ T.Carried) (h : Pursued T cfg P due k τ c)
    (hconn : Connected T cfg (k + 1) c) (hnow : c.now = k + 1) (hd : 0 < delay)
    (hin : ∀ i j m, (i, j, m) ∈ heard χ arrivals →
      j < cfg.n ∧ m.term ≤ term ∧ ∃ stamp, T.Sent (c.links i j) stamp m)
    (hcome : ∀ i < cfg.n, ∀ j < cfg.n, i ≠ j → ∀ stamp m, T.Sent (c.links i j) stamp m →
      stamp + delay = k + 1 → (i, j, m) ∈ heard χ arrivals)
    (hcalm : Uneventful f d) (hdeliver : deliver f d 0 arrivals c = .ok c') :
    Pursued T cfg P due (k + 1) τ c' := by
  have hrun := deliver_serves hcalm hdeliver
  rw [hnow] at hrun
  let B := fun x : Cluster χ => x.now = k + 1 ∧ Connected T cfg (k + 1) x ∧
    ∀ i j m, (i, j, m) ∈ heard χ arrivals → ∃ stamp, T.Sent (x.links i j) stamp m
  have hB : B c := ⟨hnow, hconn, fun i j m hm => (hin i j m hm).2.2⟩
  have hkeep : ∀ x x' a, a ∈ received χ (k + 1) arrivals → B x → x.serve a = some x' → B x' := by
    rintro x x' ⟨j, call⟩ ha ⟨hnow, hconn, hcarried⟩ hs
    obtain ⟨i, m, hm, rfl⟩ := mem_received.mp ha
    obtain ⟨b, _, hread⟩ := mem_heard.mp hm
    have hclock : (Call.handle (k + 1) i m).now = x.now := hnow.symm
    refine ⟨(serve_now hs).trans hnow, hconn.served hclock (encodable_of_read hread) hs,
      fun i' j' m' hm' => ?_⟩
    obtain ⟨stamp, hsent⟩ := hcarried i' j' m' hm'
    exact ⟨stamp, hsent.mono (serve_sends hs i' j')⟩
  have hstay : ∀ x x' a, a ∈ received χ (k + 1) arrivals → B x → Pursued T cfg P due (k + 1) τ x →
      x.serve a = some x' → Pursued T cfg P due (k + 1) τ x' := by
    rintro x x' ⟨j, call⟩ ha ⟨hnow, hconn, hcarried⟩ hx hs
    obtain ⟨i, m, hm, rfl⟩ := mem_received.mp ha
    obtain ⟨hj, hterm, _⟩ := hin i j m hm
    obtain ⟨stamp, hsent⟩ := hcarried i j m hm
    rw [← hnow] at hs
    exact hx.arrival hT hconn hj hterm hsent hs
  have hpast : Pursued T cfg P due (k + 1) τ c → Pursued T cfg P due (k + 1) τ c' := by
    intro hstart
    have hboth : B c' ∧ Pursued T cfg P due (k + 1) τ c' :=
      exec_induction (P := fun x => B x ∧ Pursued T cfg P due (k + 1) τ x) ⟨hB, hstart⟩
        (fun x x' a ha hx hs => ⟨hkeep x x' a ha hx.1 hs, hstay x x' a ha hx.1 hx.2 hs⟩) hrun
    exact hboth.2
  obtain ⟨s, l, hsight, hdone | ⟨e, stamp, w, hsent, hchases, hk, hdue⟩ | hwaits⟩ := h
  · exact hpast ⟨s, l, hsight, .inl hdone⟩
  swap
  · exact hpast ⟨s, l, hsight, .inr (.inr hwaits)⟩
  rcases Nat.lt_or_eq_of_le (Nat.succ_le_of_lt hk) with hlater | harrives
  · exact hpast ⟨s, l, hsight, .inr (.inl ⟨e, stamp, w, hsent, hchases, hlater, hdue⟩)⟩
  obtain ⟨hfrom, hto, hdiffer⟩ := P.apart hchases
  have hmem := hcome _ hfrom _ hto hdiffer stamp e.message hsent harrives.symm
  let A := fun x : Cluster χ => B x ∧ ∃ s l, Sighted T cfg P x s l ∧ P.Chases s e w
  refine exec_reaches (P := A) (x := (e.recipient, .handle (k + 1) e.sender e.message))
    (mem_received.mpr ⟨e.sender, e.message, hmem, rfl⟩) ⟨hB, s, l, hsight, hchases⟩ ?_ ?_ ?_ hrun
  · rintro x x' ⟨j, call⟩ ha ⟨hx, s, l, hsight, hchases⟩ hs
    refine ⟨hkeep x x' _ ha hx hs, ?_⟩
    obtain ⟨i, m, hm, rfl⟩ := mem_received.mp ha
    obtain ⟨hj, hterm, _⟩ := hin i j m hm
    obtain ⟨stamp, hsent⟩ := hx.2.2 i j m hm
    rw [← hx.1] at hs
    obtain ⟨s', l', hf, _⟩ := hsight.arrival hT hx.2.1 hj hterm hsent hs
    exact ⟨s', l', hf.sighted, P.mono hf.sent hchases⟩
  · rintro x x' ⟨hx, s, l, hsight, hchases⟩ hs
    obtain ⟨stamp, hsent⟩ := hx.2.2 _ _ _ hmem
    rw [← hx.1] at hs
    obtain ⟨s', l', hf, _, hnext⟩ := hsight.arrival hT hx.2.1 hto (hin _ _ _ hmem).2.1 hsent hs
    refine ⟨s', l', hf.sighted, ?_⟩
    rcases hnext w hchases with hdone | ⟨e', w', hlower, hchases', hsent'⟩
    · exact .inl hdone
    · have hpaid := Nat.mul_le_mul_left delay (Nat.succ_le_of_lt hlower)
      rw [Nat.mul_succ] at hpaid
      exact .inr (.inl ⟨e', k + 1, w', hsent', hchases', by omega, by omega⟩)
  · intro x x' a ha hx hq hs
    exact hstay x x' a ha hx.1 hq hs

theorem Pursued.timers (hT : Channel.Faithful χ T.Carried) (h : Pursued T cfg P due k k c)
    (hL : L < cfg.n)
    (hsteady : Steadied T cfg base True term L start k τ k c) (hτ : k ≤ τ + 1) (hτ' : τ ≤ k)
    (hsettled : Settled T cfg base term start) (hnow : c.now = k) (hd : 0 < delay)
    (hinterval : cfg.heartbeatInterval ≤ cfg.electionTimeout.1)
    (htimers : timers (List.range cfg.n) c = .ok c') : Pursued T cfg P due k (k + 1) c' := by
  have hrun := timers_serves htimers
  rw [hnow] at hrun
  let A := fun x : Cluster χ => x.now = k ∧ Steadied T cfg base True term L start k τ k x ∧
    Pursued T cfg P due k k x
  have hothers : ∀ x x' i, A x → i < cfg.n → i ≠ L → x.serve (i, .tick k) = some x' → x' = x := by
    rintro x x' i ⟨hnow, hx, _⟩ hi hiL hs
    obtain ⟨n, hn⟩ := hx.connected.up i hi
    obtain ⟨n', out, answer, hcall, _, _⟩ := serve_up hn hs
    obtain ⟨htick, rfl⟩ := Node.call_tick_ok hcall
    have hlater : base.now ≤ x.now := (hx.bounded trivial).later
    have hheard : start + delay ≤ k := hsettled.heard.trans (hlater.trans hnow.le)
    obtain ⟨_, hrole, hwaits⟩ := hx.waits hd hτ trivial hheard hi hiL hn
    obtain ⟨rfl, rfl⟩ := Node.tick_waits hrole hwaits htick
    exact serve_still hn hcall hs
  have hkeep : ∀ x x' a, a ∈ (List.range cfg.n).map (fun i => (i, Call.tick k)) → A x →
      x.serve a = some x' → A x' := by
    rintro x x' a ha hx hs
    obtain ⟨i, hi, rfl⟩ := List.mem_map.mp ha
    obtain ⟨hsteady', _⟩ :=
      hx.2.1.tick hd hinterval hL hτ hτ' (fun _ => hsettled) hx.1 hT.frames hs
    refine ⟨(serve_now hs).trans hx.1, hsteady', ?_⟩
    by_cases hiL : i = L
    · subst hiL
      exact (hx.2.2.tick hT hx.2.1.connected hd le_rfl hs).mono (Nat.le_succ k)
    · obtain rfl := hothers x x' i hx (List.mem_range.mp hi) hiL hs
      exact hx.2.2
  refine exec_reaches (P := A) (Q := Pursued T cfg P due k (k + 1)) (x := (L, .tick k))
    (List.mem_map.mpr ⟨L, List.mem_range.mpr hL, rfl⟩) ⟨hnow, hsteady, h⟩ hkeep ?_ ?_ hrun
  · intro x x' hx hs
    exact hx.2.2.tick hT hx.2.1.connected hd le_rfl hs
  · intro x x' a ha hx hq hs
    obtain ⟨i, hi, rfl⟩ := List.mem_map.mp ha
    by_cases hiL : i = L
    · subst hiL
      exact hq.tick hT hx.2.1.connected hd (Nat.le_succ k) hs
    · obtain rfl := hothers x x' i hx (List.mem_range.mp hi) hiL hs
      exact hq

/-! ## One step -/

theorem Pursued.same (h : Pursued T cfg P due k τ c) (hs : SameNodes c c') :
    Pursued T cfg P due k τ c' := by
  obtain ⟨s, l, hsight, hcase⟩ := h
  refine ⟨s, l, ⟨hsight.mirrors.same hs, hsight.placid, hsight.ready⟩, hcase.imp id (Or.imp ?_ id)⟩
  rintro ⟨e, stamp, w, hsent, hrest⟩
  exact ⟨e, stamp, w, by rw [hs.links]; exact hsent, hrest⟩

theorem Pursued.advanceLinks (hT : Channel.Faithful χ T.Carried)
    (h : Pursued T cfg P due k τ c) :
    Pursued T cfg P due k τ c.advanceLinks.1 := by
  obtain ⟨s, l, hsight, hcase⟩ := h
  obtain ⟨hmirrors, _⟩ := advanceLinks_mirrors hT hsight.mirrors
  refine ⟨s, l, ⟨hmirrors, hsight.placid, hsight.ready⟩, hcase.imp id (Or.imp ?_ id)⟩
  rintro ⟨e, stamp, w, hsent, hrest⟩
  exact ⟨e, stamp, w, hsent.congr ((advanceLinks_traffic c).sends _ _), hrest⟩

variable {F : Channel.FixedDelay χ delay}

theorem Running.idle_now {op : Op} (h : Running F.toTiming cfg.n c)
    (hconn : Connected F.toTiming cfg k c) (hidle : c.Idle op) (hn : c.next op = some c') :
    c'.now = c.now + 1 := by
  obtain ⟨r, hr⟩ := next_eq_some hn
  cases op with
  | step d =>
    obtain ⟨c₁, c₂, hinjected, hexchange, halike⟩ :=
      step_exchanges (h.advances F.faithful (.step d)) hr
    obtain ⟨hnow, _⟩ := exchange_synced (T := F.toTiming) hexchange
    rw [halike.now, hnow, (hconn.idle hidle hinjected).2]
  | _ => exact hidle.elim

theorem Pursued.next {op : Op} (h : Pursued F.toTiming cfg P due c.now (c.now + 1) c)
    (hsteady : Steadied F.toTiming cfg base True term L start c.now c.now c.now c)
    (hrun : Running F.toTiming cfg.n c) (hL : L < cfg.n)
    (hinterval : cfg.heartbeatInterval ≤ cfg.electionTimeout.1)
    (hsettled : Settled F.toTiming cfg base term start) (hidle : c.Idle op)
    (hn : c.next op = some c') :
    Pursued F.toTiming cfg P due c'.now (c'.now + 1) c' := by
  rw [hrun.idle_now hsteady.connected hidle hn]
  obtain ⟨r, hr⟩ := next_eq_some hn
  cases op with
  | step d =>
    obtain ⟨c₁, c₂, hinjected, hexchange, halike⟩ :=
      step_exchanges (hrun.advances F.faithful (.step d)) hr
    obtain ⟨hsame, _⟩ := hsteady.connected.idle hidle hinjected
    obtain ⟨hnow₁, hsteady₁⟩ := hsteady.injected hL F.delay_pos hidle.1 hinjected
    obtain ⟨c₃, hdeliver, htimers⟩ := Checked.bind_eq_ok.mp hexchange
    have hbase : base.now ≤ c.now := (hsteady.bounded trivial).later
    have hadvanced := hsteady₁.advanceLinks
    rw [hnow₁] at hadvanced
    have htraffic := fun i j => (advanceLinks_traffic (T := F.toTiming) c₁).sends i j
    have hcome : ∀ i < cfg.n, ∀ j < cfg.n, i ≠ j → ∀ stamp m,
        F.Sent (c₁.advanceLinks.1.links i j) stamp m → stamp + delay = c.now + 1 →
          (i, j, m) ∈ heard χ c₁.advanceLinks.2 := by
      intro i hi j hj hdiffer stamp m hsent hdue
      have hbefore := hsent.congr (htraffic i j).symm
      exact (hsteady₁.connected.arrives hnow₁).mpr ⟨hi, hj, hdiffer, stamp, hbefore, hdue⟩
    have hin : ∀ i j m, (i, j, m) ∈ heard χ c₁.advanceLinks.2 → j < cfg.n ∧ m.term ≤ term ∧
        ∃ stamp, F.Sent (c₁.advanceLinks.1.links i j) stamp m := by
      intro i j m hm
      obtain ⟨_, hj, _, stamp, hsent, _⟩ := (hsteady₁.connected.arrives hnow₁).mp hm
      exact ⟨hj, hsteady₁.within hnow₁ trivial hsettled hbase hm, stamp,
        hsent.congr (htraffic i j)⟩
    obtain ⟨hnow₃, hsteady₃⟩ := hsteady₁.delivered hnow₁ hL (fun _ => hsettled) (fun _ => hbase)
      hidle.1.2.2 hdeliver
    have h₃ := ((h.same hsame).advanceLinks F.faithful).deliver F.faithful hadvanced.connected hnow₁
      F.delay_pos hin hcome hidle.1.2.2 hdeliver
    rw [hsteady₃.connected.regular.size] at htimers
    have h₂ := h₃.timers F.faithful hL hsteady₃ le_rfl (Nat.le_succ _) hsettled hnow₃ F.delay_pos
      hinterval htimers
    exact h₂.same halike.toSameNodes
  | _ => exact hidle.elim

/-! ## Runs -/

theorem exec_idle {ops : List Op} (hrun : Running F.toTiming cfg.n c)
    (hsteady : Steadied F.toTiming cfg base True term L start c.now c.now c.now c)
    (hL : L < cfg.n) (hinterval : cfg.heartbeatInterval ≤ cfg.electionTimeout.1)
    (hsettled : Settled F.toTiming cfg base term start) (hidle : Throughout next Idle c ops)
    (hexec : exec next c ops = some c') :
    c'.now = c.now + ops.length ∧ Running F.toTiming cfg.n c' ∧
      Steadied F.toTiming cfg base True term L start c'.now c'.now c'.now c' := by
  induction ops generalizing c with
  | nil =>
    cases hexec
    exact ⟨rfl, hrun, hsteady⟩
  | cons op ops ih =>
    obtain ⟨hop, hrest⟩ := throughout_cons.mp hidle
    obtain ⟨c₁, hn, hexec⟩ := exec_cons_eq_some.mp hexec
    obtain ⟨hnow, hrun', hsteady'⟩ := ih (hrun.kept F.faithful hop.undisturbed.2.1 hn)
      (hsteady.next hrun hL hinterval (fun _ => hsettled) hop.undisturbed.1 hop.undisturbed.2.1 hn)
      (hrest c₁ hn) hexec
    refine ⟨?_, hrun', hsteady'⟩
    rw [hnow, hrun.idle_now hsteady.connected hop hn, List.length_cons]
    omega

theorem exec_pursued {ops : List Op} (hrun : Running F.toTiming cfg.n c)
    (hsteady : Steadied F.toTiming cfg base True term L start c.now c.now c.now c)
    (hL : L < cfg.n) (hinterval : cfg.heartbeatInterval ≤ cfg.electionTimeout.1)
    (hsettled : Settled F.toTiming cfg base term start) (hidle : Throughout next Idle c ops)
    (hexec : exec next c ops = some c')
    (h : Pursued F.toTiming cfg P due c.now (c.now + 1) c) :
    Pursued F.toTiming cfg P due c'.now (c'.now + 1) c' := by
  have hall := hidle.always (I := fun x => Running F.toTiming cfg.n x ∧
    Steadied F.toTiming cfg base True term L start x.now x.now x.now x ∧
    Pursued F.toTiming cfg P due x.now (x.now + 1) x) ⟨hrun, hsteady, h⟩
    fun x x' op ⟨hrun, hsteady, hx⟩ hop hn => 
      ⟨hrun.kept F.faithful hop.undisturbed.2.1 hn, hsteady.next hrun hL hinterval
        (fun _ => hsettled) hop.undisturbed.1 hop.undisturbed.2.1 hn,
      hx.next hsteady hrun hL hinterval hsettled hop hn⟩
  exact (hall ops List.prefix_rfl c' hexec).2.2

theorem Steadied.placid {acts : List Action}
    (h : Steadied F.toTiming cfg base True term L start c.now c.now c.now c)
    (hsettled : Settled F.toTiming cfg base term start) (hl : c.nodes L = some l)
    (hbatch : c.Every fun _ n => n.cfg.maxBatch = 32) (hm : Mirrors F.toTiming.Carried c s)
    (hrun : System.initial.run cfg.n acts = some s) :
    Placid cfg.n term L l.log s l := by
  have hb := h.bounded trivial
  have hheard := hsettled.heard.trans hb.later
  have hleads : l.term = term ∧ l.role = .leader := h.leads trivial hl
  have hfollows : ∀ q n, c.nodes q = some n → q ≠ L → n.term = term ∧ n.role = .follower := by
    intro q n hn hq
    have hlt := (h.connected.regular.node q n hn).lt
    obtain ⟨hterm, hrole, _⟩ :=
      h.waits F.delay_pos (Nat.le_succ c.now) trivial hheard hlt hq hn
    exact ⟨hterm, hrole⟩
  have hnodes : ∀ q n, s.node q = some n → c.nodes q = some n := by
    intro q n hn
    rw [← hm.node q]
    exact hn
  have hcalm : Calm cfg.n term l.log.length s := by
    refine ⟨⟨acts, hrun⟩, fun q n hn => hb.terms q n (hnodes q n hn), fun q n hn => ?_,
      fun q n hn hrole => ?_, fun q n hn hrole => ?_⟩
    · have hfull := hbatch q n (hnodes q n hn)
      omega
    · by_cases hq : q = L
      · subst hq
        obtain rfl : l = n := Option.some.inj (hl.symm.trans (hnodes q n hn))
        exact le_rfl
      · rw [(hfollows q n (hnodes q n hn) hq).2] at hrole
        cases hrole
    · by_cases hq : q = L
      · subst hq
        obtain rfl : l = n := Option.some.inj (hl.symm.trans (hnodes q n hn))
        rw [hleads.2] at hrole
        cases hrole
      · rw [(hfollows q n (hnodes q n hn) hq).2] at hrole
        cases hrole
  refine ⟨hcalm, fun q hq => ?_, fun q n hn => ?_, (hm.node L).trans hl, hleads.2, rfl⟩
  · obtain ⟨n, hn⟩ := h.connected.up q hq
    exact ⟨n, (hm.node q).trans hn⟩
  · by_cases hq : q = L
    · subst hq
      obtain rfl : l = n := Option.some.inj (hl.symm.trans (hnodes q n hn))
      rw [hleads.2]
      exact ⟨hleads.1, by simp⟩
    · obtain ⟨hterm, hrole⟩ := hfollows q n (hnodes q n hn) hq
      rw [hrole]
      exact ⟨hterm, by simp⟩

section Idle

variable {ops : List Op} (hrun : Running F.toTiming cfg.n c)
  (hsteady : Steadied F.toTiming cfg base True term L start c.now c.now c.now c)
  (hL : L < cfg.n) (hinterval : cfg.heartbeatInterval ≤ cfg.electionTimeout.1)
  (hsettled : Settled F.toTiming cfg base term start) (hidle : Throughout next Idle c ops)
  (hexec : exec next c ops = some c') (hm : Mirrors F.toTiming.Carried c s)
  (hplacid : Placid cfg.n term L log s l)

include hrun hsteady hL hinterval hsettled hidle hexec hm hplacid

/-- A pursuit is done after one interval and as many delays as it has hops. -/
theorem exec_done (P : Pursuit cfg.n term L log) (hready : P.Ready l)
    (hlen : cfg.heartbeatInterval + 1 + delay * P.hops ≤ ops.length) :
    ∃ s' l', Sighted F.toTiming cfg P c' s' l' ∧ P.Done s' l' := by
  obtain ⟨hnow, _⟩ := exec_idle hrun hsteady hL hinterval hsettled hidle hexec
  have hsight : Sighted F.toTiming cfg P c s l := ⟨hm, hplacid, hready⟩
  have hpursued := exec_pursued hrun hsteady hL hinterval hsettled hidle hexec
    (hsight.pursued hsteady.connected.regular le_rfl)
  exact hpursued.over (by omega) (Nat.lt_succ_self _)

theorem exec_matched
    (hlen : cfg.heartbeatInterval + 1 + delay * (4 * log.length + 2) ≤ ops.length) :
    ∃ s' l', Mirrors F.toTiming.Carried c' s' ∧ Placid cfg.n term L log s' l' ∧
      l'.Matched cfg.n L log := by
  have hnone : cfg.heartbeatInterval + 1 + delay * 0 ≤ ops.length := by omega
  obtain ⟨s', l', hsight, _⟩ := exec_done hrun hsteady hL hinterval hsettled hidle hexec hm
    hplacid .none trivial hnone
  refine ⟨s', l', hsight.mirrors, hsight.placid, fun q hq hne => ?_⟩
  obtain ⟨s'', l'', hsight', hdone⟩ := exec_done hrun hsteady hL hinterval hsettled hidle hexec
    hm hplacid (.catchUp hL hq hne) trivial hlen
  have hsame := hsight.mirrors.node L
  rw [← hsight'.mirrors.node L, hsight.placid.node, hsight'.placid.node] at hsame
  cases hsame
  exact hdone

theorem exec_levelled (hmatched : l.Matched cfg.n L log)
    (hlen : cfg.heartbeatInterval + 1 + delay ≤ ops.length) :
    ∀ i < cfg.n, ∃ n, c'.nodes i = some n ∧ n.log = log ∧ n.commitIndex = log.length := by
  have hnone : cfg.heartbeatInterval + 1 + delay * 0 ≤ ops.length := by omega
  obtain ⟨s', l', hsight, _⟩ := exec_done hrun hsteady hL hinterval hsettled hidle hexec hm
    hplacid .none trivial hnone
  have hone : cfg.heartbeatInterval + 1 + delay * 1 ≤ ops.length := by omega
  have hlevel : ∀ q < cfg.n, q ≠ L → l'.matchIndex[q]? = some log.length ∧
      ∀ n, c'.nodes q = some n → log.length ≤ n.commitIndex := by
    intro q hq hne
    obtain ⟨s'', l'', hsight', hdone⟩ := exec_done hrun hsteady hL hinterval hsettled hidle
      hexec hm hplacid (.levelUp hL hq hne) hmatched hone
    have hsame := hsight.mirrors.node L
    rw [← hsight'.mirrors.node L, hsight.placid.node, hsight'.placid.node] at hsame
    cases hsame
    refine ⟨hsight'.ready q hq hne, fun n hn => hdone n ?_⟩
    rw [hsight'.mirrors.node q]
    exact hn
  obtain ⟨hlogs, hcommit⟩ := hsight.placid.matched fun q hq hne => (hlevel q hq hne).1
  intro i hi
  obtain ⟨n, hn⟩ := hsight.placid.up i hi
  have hup : c'.nodes i = some n := (hsight.mirrors.node i).symm.trans hn
  refine ⟨n, hup, hlogs i n hn, ?_⟩
  by_cases hiL : i = L
  · subst hiL
    obtain rfl : n = l' := Option.some.inj (hn.symm.trans hsight.placid.node)
    exact hcommit
  · obtain ⟨a, acts, hsim, _⟩ := hsight.placid.calm.facts
    have hbound := (hsim.node hn).commit.le_length
    rw [hlogs i n hn] at hbound
    exact le_antisymm hbound ((hlevel i hi hiL).2 n hup)

end Idle

/-- Under a stable leader and over links of a fixed delay, once nothing is proposed any more and
with room in the logs and on the clock: no step panics, after one heartbeat interval and
`4 * length + 2` delays every node has the leader's log and the leader has committed all of it,
and after one more interval and delay every node has. -/
theorem replication_in_time {before window busy quiet : List Op} {c₀ c₁ c₂ : Cluster χ} {K : Nat}
    (hinterval : cfg.heartbeatInterval ≤ cfg.electionTimeout.1)
    (hnew : Cluster.new cfg = .ok c₀) (hbefore : exec next c₀ before = some c₁)
    (hwindow : exec next c₁ window = some c) (hround : HeartbeatRound F cfg L term c₁ c)
    (hu : Throughout next Undisturbed c₁ (window ++ busy))
    (hsized : ∀ op ∈ before ++ window ++ busy, op.Sized) (hbusy : exec next c busy = some c₂)
    (hl : c₂.nodes L = some l) (hroom : c₂.Roomy F.toTiming K)
    (hclock : c₂.now + quiet.length + max cfg.electionTimeout.2 cfg.heartbeatInterval <
      UInt64.size) (hidle : Throughout next Idle c₂ quiet) :
    ∃ c', exec next c₂ quiet = some c' ∧
      (cfg.heartbeatInterval + 1 + delay * (4 * l.log.length + 2) ≤ quiet.length →
        (∀ i < cfg.n, ∃ n, c'.nodes i = some n ∧ n.log = l.log) ∧
          ∃ l', c'.nodes L = some l' ∧ l'.commitIndex = l.log.length) ∧
      (2 * (cfg.heartbeatInterval + 1) + delay * (4 * l.log.length + 3) ≤ quiet.length →
        ∀ i < cfg.n, ∃ n, c'.nodes i = some n ∧ n.log = l.log ∧
          n.commitIndex = l.log.length) := by
  obtain ⟨hsized₁, hsized₂⟩ := List.forall_mem_append.mp hsized
  obtain ⟨hL, hrun, hsettled, hsteady⟩ := hround.stable hinterval hnew hbefore hwindow
    (hu.of_isPrefix (List.prefix_append window busy)) hsized₁
  obtain ⟨hrun₂, hsteady₂⟩ := exec_steadied hsteady hrun hL hinterval (fun _ => hsettled)
    (hu.of_append hwindow) hsized₂ hbusy
  have hall : exec next c₀ (before ++ window ++ busy) = some c₂ :=
    exec_append_eq_some.mpr ⟨c, exec_append_eq_some.mpr ⟨c₁, hbefore, hwindow⟩, hbusy⟩
  obtain ⟨_, s, acts, hacts, hm⟩ := exec_reached F.faithful hnew hsized hall
  have hbatch := exec_every lasting_batch hnew hall
  have hplacid : Placid cfg.n term L l.log s l := hsteady₂.placid hsettled hl hbatch hm hacts
  have hhospitable := hroom.hospitable hsteady₂.connected hbatch ⟨s, acts, hacts, hm⟩
  have hstill : Throughout next (fun x op => x.Undisturbed op ∧ op.Sized ∧ x.growth op ≤ 0)
      c₂ quiet := by
    intro ys op hpre x hx
    obtain ⟨hop, hsize, hgrowth⟩ := (hidle ys op hpre x hx).undisturbed
    exact ⟨hop, hsize, hgrowth.le⟩
  have hbound : K + 0 * quiet.length + 32 < UInt64.size := by
    rw [Nat.zero_mul]
    exact hhospitable.room (by omega)
  obtain ⟨c', hquiet⟩ := exec_returns hrun₂ hsteady₂ hL hinterval hsettled hstill hhospitable
    hbound hclock
  refine ⟨c', hquiet, fun hlen => ?_, fun hlen => ?_⟩
  · obtain ⟨s', l', hm', hplacid', hmatched⟩ :=
      exec_matched hrun₂ hsteady₂ hL hinterval hsettled hidle hquiet hm hplacid hlen
    obtain ⟨hlogs, hcommit⟩ := hplacid'.matched hmatched
    refine ⟨fun i hi => ?_, l', (hm'.node L).symm.trans hplacid'.node, hcommit⟩
    obtain ⟨n, hn⟩ := hplacid'.up i hi
    exact ⟨n, (hm'.node i).symm.trans hn, hlogs i n hn⟩
  · -- the first part of the run brings the log, the rest the commit index
    let k := cfg.heartbeatInterval + 1 + delay * (4 * l.log.length + 2)
    have hsplit : delay * (4 * l.log.length + 3) = delay * (4 * l.log.length + 2) + delay :=
      Nat.mul_succ _ _
    rw [← List.take_append_drop k quiet] at hquiet hidle
    obtain ⟨c₃, htake, hdrop⟩ := exec_append_eq_some.mp hquiet
    have hidle₁ := hidle.of_isPrefix (List.prefix_append (quiet.take k) (quiet.drop k))
    have hk : k ≤ (quiet.take k).length := by
      rw [List.length_take]
      omega
    obtain ⟨s', l', hm', hplacid', hmatched⟩ :=
      exec_matched hrun₂ hsteady₂ hL hinterval hsettled hidle₁ htake hm hplacid hk
    obtain ⟨_, hrun₃, hsteady₃⟩ :=
      exec_idle hrun₂ hsteady₂ hL hinterval hsettled hidle₁ htake
    refine exec_levelled hrun₃ hsteady₃ hL hinterval hsettled (hidle.of_append htake) hdrop hm'
      hplacid' hmatched ?_
    rw [List.length_drop]
    omega

/-! ## A run -/

namespace Cluster

/-- Node 2 is away while two commands are committed; then node 1 wins term 2. -/
def outage : List Op :=
  [.crash 2, .propose [1], .propose [2]] ++ steps 3 ++ [.crash 0] ++ steps 9 ++
    [.restart 2] ++ steps 1 ++ [.restart 0] ++ steps 4

def restored : Cluster OneTick := (exec next elected outage).get (by decide +kernel)

/-- The no-op of the new leader has just reached a log that ends long before it. -/
def rejecting : Cluster OneTick := (exec next restored (steps 1)).get (by decide +kernel)

def lagging : Cluster OneTick := (exec next rejecting [.propose [3]]).get (by decide +kernel)

end Cluster

theorem restored_heartbeat : HeartbeatRound OneTick.fixedDelay busy 1 2 restored rejecting where
  up i hi := Option.isSome_iff_exists.mp
    ((by decide +kernel : ∀ i < busy.n, (restored.nodes i).isSome) i hi)
  unblocked := by decide +kernel
  led := by decide +kernel
  broadcast p hp hne := Channel.Timing.exists_sent
    ((by decide +kernel : ∀ p < busy.n, p ≠ 1 →
      ∃ d ∈ OneTick.fixedDelay.sends (restored.links 1 p), d.1 = restored.now ∧
        ((Channel.read OneTick d.2).any fun m => decide (m.Appends 2)) = true) p hp hne)
  elapsed := by decide +kernel
  leads := by decide +kernel
  others p hp hne := by
    have hfollows : ∀ p < busy.n, p ≠ 1 → rejecting.InRole p 2 .follower := by decide +kernel
    obtain ⟨n, hn, hterm, _⟩ := hfollows p hp hne
    exact ⟨n, hn, hterm⟩
  flight i hi j hj _ _ _ hm _ := Channel.Timing.forall_sent
    ((by decide +kernel : ∀ i < busy.n, ∀ j < busy.n,
      ∀ d ∈ OneTick.fixedDelay.sends (rejecting.links i j),
        ((Channel.read OneTick d.2).all fun m => decide (m.term ≤ 2)) = true) i hi j hj) hm

theorem lagging_roomy (hrun : Running OneTick.timing busy.n lagging) :
    lagging.Roomy OneTick.timing 5 :=
  hrun.roomy (by decide +kernel) (by decide +kernel)

/-- The leader's first AppendEntries is rejected, and still the peer whose log is empty has all
its entries, committed, after 29 ticks. -/
theorem replication_in_time_rejected : ∃ l, lagging.nodes 1 = some l ∧ l.log.length = 5 ∧
    (∀ n ∈ lagging.nodes 2, n.log = []) ∧
    OneTick.timing.Sent (lagging.links 2 1) lagging.now (.appendResponse 2 false 0) ∧
    ∃ c, exec next lagging (steps 29) = some c ∧
      ∀ i < 3, ∃ n, c.nodes i = some n ∧ n.log = l.log ∧ n.commitIndex = l.log.length := by
  have helected : exec next fresh (steps 8) = some elected := (Option.some_get _).symm
  have houtage : exec next elected outage = some restored := (Option.some_get _).symm
  have hrestored : exec next fresh (steps 8 ++ outage) = some restored :=
    exec_append_eq_some.mpr ⟨elected, helected, houtage⟩
  have hrejecting : exec next restored (steps 1) = some rejecting := (Option.some_get _).symm
  have hlagging : exec next rejecting [.propose [3]] = some lagging := (Option.some_get _).symm
  have hu : Throughout next Undisturbed restored (steps 1 ++ [.propose [3]]) := by
    intro ys op hpre c _
    have hmem : op ∈ steps 1 ++ [.propose [3]] := hpre.subset (by simp)
    have hall : ∀ op ∈ steps 1 ++ [.propose [3]], c.Undisturbed op := by
      simp [steps, Undisturbed, Uneventful, still]
    exact hall op hmem
  have hidle : Throughout next Idle lagging (steps 29) := by
    intro ys op hpre c _
    have hmem : op ∈ steps 29 := hpre.subset (by simp)
    rw [List.eq_of_mem_replicate hmem]
    simp [Idle, Undisturbed, Uneventful, still]
  have hsized : ∀ op ∈ steps 8 ++ outage ++ steps 1 ++ [.propose [3]], op.Sized := by decide
  have hrun : Running OneTick.timing busy.n lagging :=
    new_exec_running (F := OneTick.fixedDelay) new_busy hsized (exec_append_eq_some.mpr
      ⟨rejecting, exec_append_eq_some.mpr ⟨restored, hrestored, hrejecting⟩, hlagging⟩)
  have hclock : lagging.now + (steps 29).length +
      max busy.electionTimeout.2 busy.heartbeatInterval < UInt64.size := by decide +kernel
  obtain ⟨l, hl⟩ : ∃ l, lagging.nodes 1 = some l :=
    Option.isSome_iff_exists.mp (by decide +kernel)
  have hlen : ∀ l ∈ lagging.nodes 1, l.log.length = 5 := by decide +kernel
  obtain ⟨c, hquiet, -, htime⟩ := replication_in_time (F := OneTick.fixedDelay) (by decide)
    new_busy hrestored hrejecting restored_heartbeat hu hsized hlagging hl (lagging_roomy hrun)
    hclock hidle
  rw [hlen l hl] at htime
  refine ⟨l, hl, hlen l hl, by decide +kernel, ?_, c, hquiet, ?_⟩
  · obtain ⟨m, hm, rfl⟩ := Channel.Timing.exists_sent (P := (· = .appendResponse 2 false 0))
      (by decide +kernel : ∃ d ∈ OneTick.fixedDelay.sends (lagging.links 2 1),
        d.1 = lagging.now ∧ ((Channel.read OneTick d.2).any fun m =>
          decide (m = .appendResponse 2 false 0)) = true)
    exact hm
  · rw [hlen l hl]
    exact htime (by decide)

end Landsraad
