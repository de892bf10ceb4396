import Landsraad.Raft.NodeRefinement

/-!
# Every run of the cluster is a history of the ledger

`SystemSim` relates a whole cluster to the ledger. Each action of the cluster, crashes between
two storage writes included, leads to a related ledger by a sequence of moves.
-/

namespace Landsraad

open ReplicatedLog ReplicatedLog.Ledger

def SlotSim (size i : Nat) (a : History) : Slot → Prop
  | .up n _ => NodeSim size i a n
  | .down d => DiskSim i a d.current

structure SystemSim (size : Nat) (a : History) (s : System) : Prop where
  inv : Inv (quorums size) a
  slot : ∀ i, SlotSim size i a (s.slots i)
  sent : ∀ e ∈ s.sent, MessageSim size a e

/-- What an action adds to the record of won elections and accepted proposals, and to the
reigns. -/
inductive Observed (a a' : History) (s s' : System) : Prop
  | nothing (reign : a'.reign = a.reign) (accepted : s'.accepted = s.accepted)
      (elected : s'.elected = s.elected)
  | election (i t : Nat) (l : List Entry) (vacant : a.reign t = none)
      (reign : a'.reign = Function.update a.reign t (some ⟨i, l.length, l ++ [⟨t, []⟩]⟩))
      (accepted : s'.accepted = s.accepted)
      (elected : s'.elected = s.elected ++ [⟨i, t, l.length + 1⟩])
  | acceptance (t : Nat) (r : Reign Nat Entry) (command : List UInt8)
      (reigning : a.reign t = some r)
      (reign : a'.reign =
        Function.update a.reign t (some { r with ledger := r.ledger ++ [⟨t, command⟩] }))
      (accepted : s'.accepted = s.accepted ++ [⟨r.leader, t, r.ledger.length + 1, command⟩])
      (elected : s'.elected = s.elected)

section

variable {size i : Nat} {a a' : History} {n n' : Node Disk} {s s' : System} {out : List Outgoing}

theorem Observed.of_eq {s'' : System} (h : Observed a a' s s')
    (ha : s''.accepted = s'.accepted) (he : s''.elected = s'.elected) : Observed a a' s s'' := by
  cases h with
  | nothing reign accepted elected => exact .nothing reign (ha.trans accepted) (he.trans elected)
  | election i t l vacant reign accepted elected =>
    exact .election i t l vacant reign (ha.trans accepted) (he.trans elected)
  | acceptance t r command reigning reign accepted elected =>
    exact .acceptance t r command reigning reign (ha.trans accepted) (he.trans elected)

theorem SlotSim.disk {slot : Slot} (h : SlotSim size i a slot) : DiskSim i a slot.disk.current := by
  cases slot with
  | up n delivered => exact NodeSim.disk h
  | down d => exact h

theorem SlotSim.frame {d d' : Disk} {j : Nat} {slot : Slot} (htrail : Trail size i a d a' d')
    (hinv : Inv (quorums size) a) (hij : j ≠ i) (h : SlotSim size j a slot) :
    SlotSim size j a' slot := by
  cases slot with
  | up n delivered => exact htrail.nodeSim_frame hinv hij h
  | down d => exact htrail.diskSim_frame hij h

theorem SystemSim.initial (size : Nat) : SystemSim size Ledger.initial System.initial where
  inv := Inv.initial
  slot i := ⟨rfl, rfl, rfl⟩
  sent e he := by cases he

/-- Node `i` moves along a trail to a new slot, and may send messages. -/
theorem SystemSim.move (h : SystemSim size a s) {d : Disk}
    (htrail : Trail size i a (s.slots i).disk a' d) (slot : Slot) (hslot : SlotSim size i a' slot)
    (hslots : s'.slots = Function.update s.slots i slot)
    (hsent : ∀ e ∈ s'.sent, e ∈ s.sent ∨ MessageSim size a' e) : SystemSim size a' s' where
  inv := h.inv.steps htrail.steps
  slot j := by
    rw [hslots]
    by_cases hj : j = i
    · subst hj
      rwa [Function.update_self]
    · rw [Function.update_of_ne hj]
      exact (h.slot j).frame htrail h.inv hj
  sent e he := by
    rcases hsent e he with he | he
    · exact (h.sent e he).mono (htrail.steps.extends h.inv)
    · exact he

/-! ## One call -/

/-- What the call `c` of node `i` does to the reigns: an accepted proposal extends the reign of
the node's term, every other answer leaves them or opens the reign of a won election. -/
def Effect (i : Nat) (a a' : History) (n n' : Node Disk) (c : Call) (answer : Option Nat) : Prop :=
  (answer = none ∧ Reigns i a a' n n') ∨
    ∃ now command index r, c = .propose now command ∧ answer = some index ∧ n.role = .leader ∧
      n'.term = n.term ∧ a.reign n.term = some r ∧ r.leader = i ∧ index = r.ledger.length + 1 ∧
      a'.reign = Function.update a.reign n.term
        (some { r with ledger := r.ledger ++ [⟨n.term, command⟩] })

theorem call_simulates (hinv : Inv (quorums size) a) (h : NodeSim size i a n) {c : Call}
    {answer : Option Nat}
    (hmsg : ∀ now sender msg, c = .handle now sender msg → MessageSim size a ⟨sender, i, msg⟩)
    (hc : n.call c = .ok (n', out, answer)) :
    ∃ a', Simulates size i a n a' n' out ∧ Effect i a a' n n' c answer := by
  cases c with
  | tick now =>
    obtain ⟨ht, rfl⟩ := Node.call_tick_ok hc
    obtain ⟨a', hsim, hr⟩ := tick_simulates hinv h ht
    exact ⟨a', hsim, .inl ⟨rfl, hr⟩⟩
  | propose now command =>
    obtain ⟨r, hp, rfl, rfl⟩ := Node.call_propose_ok hc
    cases r with
    | ok accepted =>
      obtain ⟨index, out₁⟩ := accepted
      obtain ⟨a', r, hsim, hrole, _, hterm, hr, hlead, hindex, hreign⟩ :=
        propose_simulates hinv h hp
      exact ⟨a', hsim, .inr
        ⟨now, command, index, r, rfl, rfl, hrole, hterm, hr, hlead, hindex, hreign⟩⟩
    | error e =>
      rcases Node.propose_ok hp with ⟨_, rfl, _⟩ | ⟨_, _, _, _, _, he, _⟩
      · exact ⟨a, .idle h, .inl ⟨rfl, .inl ⟨rfl, fun hr => ⟨hr, rfl⟩⟩⟩⟩
      · cases he
  | handle now sender msg =>
    obtain ⟨hh, rfl⟩ := Node.call_handle_ok hc
    obtain ⟨a', hsim, hr⟩ := handle_simulates hinv h (hmsg now sender msg rfl) hh
    exact ⟨a', hsim, .inl ⟨rfl, hr⟩⟩

theorem observe_observed (h : NodeSim size i a n) {c : Call} {answer : Option Nat}
    (he : Effect i a a' n n' c answer) : Observed a a' s (s.observe i n n' c answer) := by
  rcases he with ⟨rfl, ⟨hreign, hrole⟩ | ⟨hrole, hvacant, l, hlog, hreign⟩⟩ |
    ⟨now, command, index, r, rfl, rfl, hrole, hterm, hr, rfl, rfl, hreign⟩
  · refine .nothing hreign ?_ ?_
    · cases c <;> rfl
    · simp only [System.observe]
      rw [if_neg]
      exact fun hnew => hnew.2 (hrole hnew.1)
  · refine .election i n'.term l hvacant ?_ ?_ ?_
    · rw [hreign, hlog]
    · cases c <;> rfl
    · simp only [System.observe, Node.lastIndex, hlog, List.length_append, List.length_singleton]
      rw [if_pos]
      refine ⟨hrole, fun hold => ?_⟩
      obtain ⟨r, hr, _⟩ := h.leader hold.1
      rw [hold.2, hvacant] at hr
      cases hr
  · refine .acceptance n.term r command hr hreign ?_ ?_
    · simp [System.observe, hterm]
    · simp only [System.observe]
      rw [if_neg]
      exact fun hnew => hnew.2 ⟨hrole, hterm.symm⟩

/-! ## One action -/

/-- From `(a, s)` an action leads to `(a', s')`. -/
structure Performed (size : Nat) (act : Action) (a : History) (s : System) (a' : History)
    (s' : System) : Prop where
  sim : SystemSim size a' s'
  steps : Steps (quorums size) a a'
  written : ∀ i, Written size i a a' (s.slots i).disk (s'.slots i).disk
  observed : act.Whole → Observed a a' s s'

theorem written_update {d : Disk} {slot : Slot} (htrail : Trail size i a (s.slots i).disk a' d)
    (hd : slot.disk = d) (hslots : s'.slots = Function.update s.slots i slot) (j : Nat) :
    Written size j a a' (s.slots j).disk (s'.slots j).disk := by
  rw [hslots]
  by_cases hj : j = i
  · subst hj
    rw [Function.update_self, hd]
    exact htrail.written
  · rw [Function.update_of_ne hj]
    exact .same _

/-- An action that changes the slot of `i` but neither its storage nor the ledger. -/
theorem SystemSim.still (h : SystemSim size a s) (slot : Slot) (hslot : SlotSim size i a slot)
    (hdisk : slot.disk = (s.slots i).disk) (act : Action) :
    Performed size act a s a (s.setSlot i slot) where
  sim := h.move .refl slot hslot rfl fun _ he => .inl he
  steps := .refl
  written := written_update .refl hdisk rfl
  observed _ := .nothing rfl rfl rfl

theorem NodeSim.attempted {m : Node Disk} (h : NodeSim size i a n) (hm : m = n ∨ m = n.eased) :
    NodeSim size i a m := by
  rcases hm with rfl | rfl
  · exact h
  · exact { h with }

theorem performCall_simulates (h : SystemSim size a s) {c : Call} {fate : Fate}
    (hp : s.performCall i c fate = some s') :
    ∃ a', Performed size (.call i c fate) a s a' s' := by
  obtain ⟨n, delivered, m, n', out, answer, hslot, hdeliv, hm, hcall, hfate⟩ :=
    System.performCall_ok hp
  have hn : NodeSim size i a n := by
    have := h.slot i
    rwa [hslot] at this
  have hnode := hn.attempted hm
  have hdisk : m.storage = n.storage := by
    rcases hm with rfl | rfl <;> rfl
  have hmsg : ∀ now sender msg, c = .handle now sender msg →
      MessageSim size a ⟨sender, i, msg⟩ := by
    rintro now sender msg rfl
    exact h.sent _ hdeliv
  obtain ⟨a', hsim, heffect⟩ := call_simulates h.inv hnode hmsg hcall
  have hobs := observe_observed (s := s) hnode heffect
  have htrail : Trail size i a (s.slots i).disk a' n'.storage := by
    rw [hslot, show Slot.disk (.up n delivered) = m.storage from hdisk.symm]
    exact hsim.trail
  rcases hfate with ⟨rfl, rfl, rfl⟩ | ⟨rfl, rfl, rfl⟩ | ⟨lost, rfl, hlost, rfl⟩
  · refine ⟨a', ⟨h.move htrail (.up n' delivered) hsim.node rfl ?_, htrail.steps,
      written_update htrail rfl rfl, fun _ => hobs.of_eq rfl rfl⟩⟩
    intro e he
    rcases List.mem_append.mp he with he | he
    · exact .inl he
    · obtain ⟨o, ho, rfl⟩ := List.mem_map.mp he
      exact .inr (hsim.sent o ho)
  · exact ⟨a', ⟨h.move htrail (.down n'.storage) hsim.node.disk rfl fun e he => .inl he,
      htrail.steps, written_update htrail rfl rfl, fun _ => hobs.of_eq rfl rfl⟩⟩
  · -- the trail up to the last write that happened
    rw [← hdisk] at hlost
    obtain ⟨b, hback⟩ := hsim.trail.rewind hlost
    have htrail' : Trail size i a (s.slots i).disk b (n'.storage.rewind lost) := by
      rw [hslot, show Slot.disk (.up n delivered) = m.storage from hdisk.symm]
      exact hback
    exact ⟨b, ⟨h.move htrail' (.down _) (hback.diskSim hnode.disk) rfl
      fun e he => .inl he, htrail'.steps, written_update htrail' rfl rfl, False.elim⟩⟩

theorem fresh_simulates {cfg : Config} {d : Disk} {deadline : Nat} {rng : UInt64}
    (hdisk : DiskSim i a d.current) (hid : cfg.id = i) (hsize : cfg.clusterSize = size)
    (hlt : i < size) : NodeSim size i a (Node.fresh cfg d deadline rng) where
  id := hid
  clusterSize := hsize
  lt_size := hlt
  persisted := rfl
  disk := hdisk
  votes_length := by simp [Node.fresh, hsize]
  candidate := by simp [Node.fresh]
  leader := by simp [Node.fresh]
  commit := .zero _ _

theorem perform_simulates (h : SystemSim size a s) {act : Action}
    (hp : s.perform size act = some s') : ∃ a', Performed size act a s a' s' := by
  cases act with
  | call i c fate => exact performCall_simulates h hp
  | takeCommitted i =>
    have hi := h.slot i
    obtain ⟨n, delivered, n', batch, hslot, htake, rfl⟩ := System.perform_takeCommitted_ok hp
    obtain ⟨rfl, _, _⟩ := Node.takeCommitted_ok htake
    rw [hslot] at hi
    have hnode : NodeSim size i a n := hi
    refine ⟨a, h.still (.up _ _) ?_ (by rw [hslot]; rfl) _⟩
    exact { hnode with }
  | crash i =>
    have hi := (h.slot i).disk
    obtain ⟨n, delivered, hslot, rfl⟩ := System.perform_crash_ok hp
    rw [hslot] at hi
    exact ⟨a, h.still (.down n.storage) hi (by rw [hslot]; rfl) _⟩
  | restart i cfg now =>
    have hi := (h.slot i).disk
    obtain ⟨d, n, hslot, hid, hsize, hnew, rfl⟩ := System.perform_restart_ok hp
    obtain ⟨hlt, deadline, rng, rfl⟩ := Node.new_ok hnew
    rw [hid, hsize] at hlt
    rw [hslot] at hi
    have hnode : SlotSim size i a (.up (Node.fresh cfg d deadline rng) []) :=
      fresh_simulates hi hid hsize hlt
    exact ⟨a, h.still _ hnode (by rw [hslot]; rfl) _⟩

/-! ## Runs -/

theorem run_simulates (h : SystemSim size a s) {acts : List Action}
    (hr : s.run size acts = some s') :
    ∃ a', SystemSim size a' s' ∧ Steps (quorums size) a a' ∧
      ∀ i, Written size i a a' (s.slots i).disk (s'.slots i).disk := by
  refine Run.exec_induction (P := fun s' => ∃ a', SystemSim size a' s' ∧
    Steps (quorums size) a a' ∧ ∀ i, Written size i a a' (s.slots i).disk (s'.slots i).disk)
    ⟨a, h, .refl, fun i => .same _⟩ ?_ hr
  rintro s₁ s₂ act - ⟨a₁, hsim, hsteps, hwritten⟩ hp
  obtain ⟨a₂, hp⟩ := perform_simulates hsim hp
  exact ⟨a₂, hp.sim, hsteps.trans hp.steps,
    fun i => (hwritten i).trans (hp.written i) hsteps hp.steps⟩

/-- The states of a run from the empty cluster and of a continuation of it. -/
theorem run_run_simulates {acts acts' : List Action}
    (h : System.initial.run size acts = some s) (h' : s.run size acts' = some s') :
    ∃ a a', SystemSim size a s ∧ SystemSim size a' s' ∧ Steps (quorums size) a a' ∧
      ∀ i, Written size i a a' (s.slots i).disk (s'.slots i).disk := by
  obtain ⟨a, hsim, _, _⟩ := run_simulates (.initial size) h
  obtain ⟨a', hsim', hsteps, hwritten⟩ := run_simulates hsim h'
  exact ⟨a, a', hsim, hsim', hsteps, hwritten⟩

/-! ## What an action does to the live nodes -/

/-- What an action does to the live nodes and to the messages sent. -/
inductive Changed (s s' : System) : Prop
  | called (i : Nat) (c : Call) (n n' : Node Disk) (delivered : List (Nat × Entry))
      (out : List Outgoing) (answer : Option Nat) (slot : s.slots i = .up n delivered)
      (deliverable : s.Deliverable i c) (call : n.call c = .ok (n', out, answer))
      (slots : s'.slots = Function.update s.slots i (.up n' delivered))
      (sent : s'.sent = s.sent ++ out.map fun o => ⟨i, o.recipient, o.message⟩)
  | applied (i : Nat) (n : Node Disk) (delivered delivered' : List (Nat × Entry))
      (slot : s.slots i = .up n delivered)
      (slots : s'.slots =
        Function.update s.slots i (.up { n with appliedIndex := n.commitIndex } delivered'))
      (sent : s'.sent = s.sent)
  | started (i : Nat) (cfg : Config) (d : Disk) (now : Nat) (n : Node Disk)
      (new : Node.new cfg d now = .ok n) (slots : s'.slots = Function.update s.slots i (.up n []))
      (sent : s'.sent = s.sent)
  | stopped (i : Nat) (d : Disk) (slots : s'.slots = Function.update s.slots i (.down d))
      (sent : s'.sent = s.sent)

theorem perform_changed {act : Action} (h : s.perform size act = some s') : Changed s s' := by
  cases act with
  | call i c fate =>
    obtain ⟨n, delivered, m, n', out, answer, hslot, hdeliv, _, hcall, hfate⟩ :=
      System.performCall_ok h
    rcases hfate with ⟨_, rfl, rfl⟩ | ⟨_, _, rfl⟩ | ⟨lost, _, _, rfl⟩
    · exact .called i c m n' delivered out answer hslot hdeliv hcall rfl rfl
    · exact .stopped i _ rfl rfl
    · exact .stopped i _ rfl rfl
  | takeCommitted i =>
    obtain ⟨n, delivered, n', batch, hslot, htake, rfl⟩ := System.perform_takeCommitted_ok h
    obtain ⟨rfl, _⟩ := Node.takeCommitted_ok htake
    exact .applied i n delivered _ hslot rfl rfl
  | crash i =>
    obtain ⟨n, delivered, _, rfl⟩ := System.perform_crash_ok h
    exact .stopped i _ rfl rfl
  | restart i cfg now =>
    obtain ⟨d, n, _, _, _, hnew, rfl⟩ := System.perform_restart_ok h
    exact .started i cfg d now n hnew rfl rfl

theorem System.node_eq_some {n : Node Disk} :
    s.node i = some n ↔ ∃ delivered, s.slots i = .up n delivered := by
  unfold System.node
  cases s.slots i <;> simp

theorem System.node_of_update {slot : Slot} (hslots : s'.slots = Function.update s.slots i slot)
    {j : Nat} {n : Node Disk} (h : s'.node j = some n) :
    (j = i ∧ ∃ delivered, slot = .up n delivered) ∨ (j ≠ i ∧ s.node j = some n) := by
  rw [System.node_eq_some, hslots] at h
  by_cases hj : j = i
  · subst hj
    rw [Function.update_self] at h
    exact .inl ⟨rfl, h⟩
  · rw [Function.update_of_ne hj] at h
    exact .inr ⟨hj, System.node_eq_some.mpr h⟩

/-- What holds of every started node and survives every call holds of every live node of every
reachable cluster. -/
theorem run_node_induction {P : Node Disk → Prop}
    (start : ∀ cfg d now n, Node.new cfg d now = .ok n → P n)
    (call : ∀ a i n c n' out answer, Inv (quorums size) a → NodeSim size i a n' → P n →
      n.call c = .ok (n', out, answer) → P n')
    (apply : ∀ n, P n → P { n with appliedIndex := n.commitIndex }) {acts : List Action}
    (h : System.initial.run size acts = some s) : ∀ i n, s.node i = some n → P n := by
  have hrun : (∃ a, SystemSim size a s) ∧ ∀ i n, s.node i = some n → P n := by
    refine Run.exec_induction (P := fun s : System =>
      (∃ a, SystemSim size a s) ∧ ∀ i n, s.node i = some n → P n)
      ⟨⟨_, .initial size⟩, fun i n hi => by cases hi⟩ ?_ h
    rintro s₁ s₂ act - ⟨⟨a, hsim⟩, hP⟩ hstep
    obtain ⟨a', hper⟩ := perform_simulates hsim hstep
    refine ⟨⟨a', hper.sim⟩, fun i n hi => ?_⟩
    have hchanged := perform_changed hstep
    cases hchanged with
    | called j c m m' delivered out answer hslot _ hcall hslots _ =>
      rcases System.node_of_update hslots hi with ⟨rfl, _, hup⟩ | ⟨_, hold⟩
      · cases hup
        have hm' := hper.sim.slot i
        rw [hslots, Function.update_self] at hm'
        exact call a' i m c n out answer hper.sim.inv hm'
          (hP i m (System.node_eq_some.mpr ⟨_, hslot⟩)) hcall
      · exact hP i n hold
    | applied j m _ _ hslot hslots _ =>
      rcases System.node_of_update hslots hi with ⟨rfl, _, hup⟩ | ⟨_, hold⟩
      · cases hup
        exact apply m (hP i m (System.node_eq_some.mpr ⟨_, hslot⟩))
      · exact hP i n hold
    | started j cfg d now m hnew hslots _ =>
      rcases System.node_of_update hslots hi with ⟨rfl, _, hup⟩ | ⟨_, hold⟩
      · cases hup
        exact start cfg d now n hnew
      · exact hP i n hold
    | stopped j d hslots _ =>
      rcases System.node_of_update hslots hi with ⟨rfl, _, hup⟩ | ⟨_, hold⟩
      · cases hup
      · exact hP i n hold
  exact hrun.2

end

end Landsraad
