import Landsraad.Raft.Provenance
import Landsraad.Raft.Safety

/-!
# A cut network

While no message gets from one side of a cluster to the other, an entry that was made on one side
stays there, and a side that is no majority commits nothing that it was given after the cut.
-/

namespace Landsraad

open ReplicatedLog ReplicatedLog.Ledger Checked

/-! ## The far side of a cut -/

namespace System

variable {size i index T now : Nat} {side : Nat → Bool} {P : Nat → Entry → Prop}
  {a a' : History} {s₁ s s' : System} {act : Action}

/-- Of what the side sends from `s₁` on, nothing is handed over outside of it. -/
def Muted (side : Nat → Bool) (s₁ : System) (acts : List Action) : Prop :=
  ∀ i now j msg fate, Action.call i (.handle now j msg) fate ∈ acts → side j = true →
    side i = false → ⟨j, i, msg⟩ ∈ s₁.sent

/-- Outside the side, every log that was ever stored and every message that was sent is one that
`P` allows. -/
structure Confined (P : Nat → Entry → Prop) (side : Nat → Bool) (s : System) : Prop where
  disks : ∀ j, side j = false → ∀ p ∈ (s.slots j).disk.states, Admits P p.log
  sent : ∀ e ∈ s.sent, side e.sender = false → e.message.Admits P

theorem Confined.update (h : Confined P side s) {slot : Slot}
    (hslots : s'.slots = Function.update s.slots i slot)
    (hdisk : side i = false → ∀ p ∈ slot.disk.states, Admits P p.log)
    (hsent : ∀ e ∈ s'.sent, side e.sender = false → e ∈ s.sent ∨ e.message.Admits P) :
    Confined P side s' where
  disks j hj p hp := by
    rw [hslots] at hp
    by_cases hji : j = i
    · subst hji
      rw [Function.update_self] at hp
      exact hdisk hj p hp
    · rw [Function.update_of_ne hji] at hp
      exact h.disks j hj p hp
  sent e he hside := (hsent e he hside).elim (fun hold => h.sent e hold hside) id

theorem Confined.performCall {c : Call} {fate : Fate} (h : Confined P side s)
    (hsim : SystemSim size a s) (hp : s.performCall i c fate = some s')
    (hmsg : ∀ now j msg, c = .handle now j msg → ⟨j, i, msg⟩ ∈ s.sent → side i = false →
      msg.Admits P)
    (hown : ∀ n m n' out answer, s.node i = some n → s.Deliverable i c →
      (m = n ∨ m = n.eased) → m.call c = .ok (n', out, answer) → side i = false →
        n'.role = .leader → ∀ k e, e.term = n'.term → P k e) :
    Confined P side s' := by
  obtain ⟨n, delivered, m, n', out, answer, hslot, hdeliv, hm, hcall, hfate⟩ :=
    System.performCall_ok hp
  have hn : s.node i = some n := System.node_of_up hslot
  have hflow : side i = false →
      (∀ p ∈ n'.storage.states, Admits P p.log) ∧ ∀ o ∈ out, o.message.Admits P := by
    intro hside
    have hdisks := h.disks i hside
    rw [hslot] at hdisks
    have hpersisted := (hsim.node hn).persisted
    have hlog : Admits P n.log := by
      have hcurrent := hdisks n.storage.current (List.mem_cons_self ..)
      rw [hpersisted] at hcurrent
      exact hcurrent
    have hpersisted' : m.Persisted := by
      rcases hm with rfl | rfl
      · exact hpersisted
      · exact hpersisted
    obtain ⟨hstorage, hsamelog⟩ : m.storage = n.storage ∧ m.log = n.log := by
      rcases hm with rfl | rfl <;> exact ⟨rfl, rfl⟩
    rw [← hsamelog] at hlog
    have hread : ∀ now j msg, c = .handle now j msg → msg.Admits P := by
      rintro now j msg rfl
      exact hmsg now j msg rfl hdeliv hside
    obtain ⟨hwritten, hout⟩ := Node.call_flowed hpersisted' hlog hread
      (fun hrole k command _ => hown n m n' out answer hn hdeliv hm hcall hside hrole k _ rfl) hcall
    refine ⟨fun p hp => (hwritten.states p hp).elim (fun hold => hdisks p ?_) id, hout⟩
    rw [hstorage] at hold
    exact hold
  rcases hfate with ⟨_, _, rfl⟩ | ⟨_, _, rfl⟩ | ⟨lost, _, _, rfl⟩
  · refine h.update rfl (fun hside => (hflow hside).1) fun e he hside => ?_
    rcases List.mem_append.mp he with hold | hnew
    · exact .inl hold
    · obtain ⟨o, ho, rfl⟩ := List.mem_map.mp hnew
      exact .inr ((hflow hside).2 o ho)
  · exact h.update rfl (fun hside => (hflow hside).1) fun e he _ => .inl he
  · refine h.update rfl (fun hside p hp => ?_) fun e he _ => .inl he
    exact (hflow hside).1 p (Journal.states_rewind_subset _ _ hp)

/-- Anything but an entry of term `T` at position `x`. -/
def Other (x T k : Nat) (e : Entry) : Prop := k = x → e.term ≠ T

variable {x : Nat} {r : Reign Nat Entry}

theorem Confined.step (h : Confined (Other x T) side s) (hsim : SystemSim size a s)
    (hr : a.reign T = some r) (hlead : side r.leader = true)
    (hpast : ∀ e ∈ s₁.sent, e.message.Admits (Other x T)) (hmuted : Muted side s₁ [act])
    (hp : s.perform size act = some s') : Confined (Other x T) side s' := by
  cases act with
  | call i c fate =>
    refine h.performCall hsim hp ?_ ?_
    · rintro now j msg rfl hsent hside
      cases hj : side j with
      | true => exact hpast _ (hmuted i now j msg fate (List.mem_singleton_self _) hj hside)
      | false => exact h.sent _ hsent hj
    · -- a leader of `T` outside the side would be a second one
      rintro n m n' out answer hn hdeliv hm hcall hside hrole k e hterm - hT
      have hmsg : ∀ now sender msg, c = .handle now sender msg →
          MessageSim size a ⟨sender, i, msg⟩ := by
        rintro now sender msg rfl
        exact hsim.sent _ hdeliv
      obtain ⟨a', hcalled, _⟩ := call_simulates hsim.inv ((hsim.node hn).attempted hm) hmsg hcall
      obtain ⟨r', hr', hlead', _⟩ := hcalled.node.leader hrole
      obtain ⟨r'', hr'', hsame, _⟩ := (hcalled.trail.steps.extends hsim.inv).reign hr
      rw [← hterm, hT, hr''] at hr'
      cases hr'
      rw [← hsame, hlead', hside] at hlead
      cases hlead
  | takeCommitted i =>
    obtain ⟨n, delivered, n', batch, hslot, htake, rfl⟩ := System.perform_takeCommitted_ok hp
    obtain ⟨rfl, _⟩ := Node.takeCommitted_ok htake
    refine h.update rfl (fun hside => ?_) fun e he _ => .inl he
    have hdisks := h.disks i hside
    rw [hslot] at hdisks
    exact hdisks
  | crash i =>
    obtain ⟨n, delivered, hslot, rfl⟩ := System.perform_crash_ok hp
    refine h.update rfl (fun hside => ?_) fun e he _ => .inl he
    have hdisks := h.disks i hside
    rw [hslot] at hdisks
    exact hdisks
  | restart i cfg now =>
    obtain ⟨d, n, hslot, _, _, hnew, rfl⟩ := System.perform_restart_ok hp
    obtain ⟨_, deadline, rng, rfl⟩ := Node.new_ok hnew
    refine h.update rfl (fun hside => ?_) fun e he _ => .inl he
    have hdisks := h.disks i hside
    rw [hslot] at hdisks
    exact hdisks

theorem Confined.run {acts : List Action} (h : Confined (Other x T) side s)
    (hsim : SystemSim size a s) (hr : a.reign T = some r) (hlead : side r.leader = true)
    (hpast : ∀ e ∈ s₁.sent, e.message.Admits (Other x T)) (hmuted : Muted side s₁ acts)
    (hrun : s.run size acts = some s') : Confined (Other x T) side s' := by
  have hall : ∃ a r, SystemSim size a s' ∧ a.reign T = some r ∧ side r.leader = true ∧
      Confined (Other x T) side s' := by
    refine Run.exec_induction (P := fun s : System => ∃ a r, SystemSim size a s ∧
      a.reign T = some r ∧ side r.leader = true ∧ Confined (Other x T) side s)
      ⟨a, r, hsim, hr, hlead, h⟩ ?_ hrun
    rintro s s' act hact ⟨a, r, hsim, hr, hlead, h⟩ hp
    obtain ⟨a', hperf⟩ := perform_simulates hsim hp
    obtain ⟨r', hr', hsame, _⟩ := (hperf.steps.extends hsim.inv).reign hr
    have hone : Muted side s₁ [act] := by
      intro i now j msg fate he
      rw [← List.mem_singleton.mp he] at hact
      exact hmuted i now j msg fate hact
    exact ⟨a', r', hperf.sim, hr', by rw [hsame]; exact hlead,
      h.step hsim hr hlead hpast hone hp⟩
  obtain ⟨_, _, _, _, _, hconfined⟩ := hall
  exact hconfined

/-! ## A proposal behind the cut -/

/-- The position after the end of a reign holds an entry of its term nowhere. -/
theorem Sourced.other {l : List Entry} (hl : a.Sourced l) (hr : a.reign T = some r) :
    Admits (Other r.ledger.length T) l := by
  rintro k e he rfl hT
  obtain ⟨r', hr', hag⟩ := hl _ e he
  have hstamp : a.reign e.term = some r' := hr'
  rw [hT, hr] at hstamp
  cases hstamp
  have hlen := hag.2.1
  omega

theorem run_other {acts : List Action} (hrun : System.initial.run size acts = some s) :
    ∃ a, SystemSim size a s ∧ ∀ T r, a.reign T = some r →
      (∀ j, ∀ p ∈ (s.slots j).disk.states, Admits (Other r.ledger.length T) p.log) ∧
        ∀ e ∈ s.sent, e.message.Admits (Other r.ledger.length T) := by
  obtain ⟨a, hsim, _, hwritten⟩ := run_simulates (.initial size) hrun
  refine ⟨a, hsim, fun T r hr => ⟨fun j p hp => ?_, fun e he => ?_⟩⟩
  · obtain ⟨newer, hstates, hnewer⟩ := hwritten j
    rw [hstates] at hp
    rcases List.mem_append.mp hp with hp | hp
    · obtain ⟨b, hbefore, hafter, hdisk⟩ := hnewer p hp
      have hinv : Inv (quorums size) b := Inv.initial.steps hbefore
      have hsourced := (hinv.log_sourced j).mono (hafter.extends hinv)
      rw [hdisk.log] at hsourced
      exact Sourced.other hsourced hr
    · rw [List.mem_singleton.mp hp]
      intro k e he
      cases he
  · have hmsg := hsim.sent e he
    obtain ⟨sender, recipient, message⟩ := e
    cases message with
    | appendEntries term prevIndex prevTerm entries leaderCommit =>
      obtain ⟨r', hr', _, hslice, _⟩ := hmsg
      exact (Sourced.other (hsim.inv.reign_sourced hr') hr).slice hslice
    | _ => trivial

end System

section

variable {size i T index now : Nat} {command : List UInt8} {side : Nat → Bool}
  {before more : List Action} {s₁ s₂ s₃ : System}

/-- A leader on a side that is no majority accepts a proposal, and from then on nothing that the
side sends is handed over outside of it; what it was sent may still arrive, and nodes may crash
and restart on both sides. Then the entry never leaves the side, not even into a storage that a
later write replaced, and no node of either side commits it. -/
theorem minority_commits_nothing (hrun : System.initial.run size before = some s₁)
    (hpropose : s₁.perform size (.call i (.propose now command) .returns) = some s₂)
    (haccept : s₂.accepted = s₁.accepted ++ [⟨i, T, index, command⟩]) (hside : side i = true)
    (hminority : 2 * ((Finset.range size).filter fun j => side j = true).card ≤ size)
    (hmore : s₂.run size more = some s₃) (hmuted : System.Muted side s₁ more) :
    (∀ j, side j = false → ∀ p ∈ (s₃.slots j).disk.states, ∀ e,
      p.log[index - 1]? = some e → e.term ≠ T) ∧
    ∀ j n, s₃.node j = some n → index ≤ n.commitIndex → ∀ e,
      n.log[index - 1]? = some e → e.term ≠ T := by
  obtain ⟨a, hsim, hother⟩ := System.run_other hrun
  obtain ⟨a₂, hperf⟩ := perform_simulates hsim hpropose
  obtain ⟨r, hr, rfl, rfl⟩ : ∃ r, a.reign T = some r ∧ r.leader = i ∧
      r.ledger.length + 1 = index := by
    cases hperf.observed trivial with
    | nothing _ accepted _ => simp [haccept] at accepted
    | election _ _ _ _ _ accepted _ => simp [haccept] at accepted
    | acceptance t r _ hr _ accepted _ =>
      rw [haccept, List.append_cancel_left_eq] at accepted
      cases accepted
      exact ⟨r, hr, rfl, rfl⟩
  rw [Nat.add_sub_cancel]
  obtain ⟨hdisks, hsent⟩ := hother T r hr
  obtain ⟨r₂, hr₂, hlead₂, _⟩ := (hperf.steps.extends hsim.inv).reign hr
  have hconfined₂ : System.Confined (System.Other r.ledger.length T) side s₂ := by
    have hconfined : System.Confined (System.Other r.ledger.length T) side s₁ :=
      ⟨fun j _ => hdisks j, fun e he _ => hsent e he⟩
    have hcalled : s₁.performCall r.leader (.propose now command) .returns = some s₂ := hpropose
    refine hconfined.performCall hsim hcalled ?_ ?_
    · rintro now j msg ⟨⟩
    · intro _ _ _ _ _ _ _ _ _ hout
      rw [hside] at hout
      cases hout
  have hconfined₃ := hconfined₂.run hperf.sim hr₂ (by rwa [hlead₂]) hsent hmuted hmore
  refine ⟨fun j hj p hp e he => hconfined₃.disks j hj p hp _ e he rfl, ?_⟩
  intro j n hn hcommit e he hT
  obtain ⟨a₃, hsim₃, _⟩ := run_simulates hperf.sim hmore
  obtain ⟨Q, hQ, hstored⟩ := SystemSim.majority_holds hsim₃ hsim₃ .refl hn (by omega)
  have hinside : ∀ w ∈ Q, side w = true := by
    intro w hw
    by_contra hout
    rw [Bool.not_eq_true] at hout
    have hat := (hstored w hw).getElem?_eq (show r.ledger.length < n.commitIndex by omega)
    rw [he] at hat
    exact hconfined₃.disks w hout _ (List.mem_cons_self ..) _ e hat rfl hT
  have hlt := majority_lt_filter hQ hinside
  rw [Finset.card_range] at hlt
  omega

end

namespace System

/-- The leader of term 1 accepts a proposal, which reaches nobody. -/
def stranded : System :=
  (opened.perform 3 (.call 0 (.propose 1 [7]) .returns)).get (by decide +kernel)

/-- Both peers still receive the no-op of term 1; then node 1 wins term 2 with the vote of
node 2 and commits its own no-op. -/
def bypass : List Action :=
  [.call 1 (.handle 1 0 (.appendEntries 1 0 0 [⟨1, []⟩] 0)) .returns,
    .call 2 (.handle 1 0 (.appendEntries 1 0 0 [⟨1, []⟩] 0)) .returns,
    .call 1 (.tick 3) .returns,
    .call 2 (.handle 3 1 (.requestVote 2 1 1)) .returns,
    .call 1 (.handle 3 2 (.voteResponse 2 true)) .returns,
    .call 2 (.handle 3 1 (.appendEntries 2 1 1 [⟨2, []⟩] 0)) .returns,
    .call 1 (.handle 3 2 (.appendResponse 2 true 2)) .returns]

def bypassed : System := (stranded.run 3 bypass).get (by decide +kernel)

def otherLeader : Node Disk := (bypassed.node 1).get (by decide +kernel)

end System

/-- Node 1 commits index 2 in term 2, and the proposal of term 1 stays with node 0. -/
theorem minority_commits_nothing_stranded :
    System.bypassed.node 1 = some System.otherLeader ∧ 2 ≤ System.otherLeader.commitIndex ∧
      (∀ p ∈ (System.bypassed.slots 2).disk.states, ∀ e, p.log[1]? = some e → e.term ≠ 1) ∧
      ∀ e, System.otherLeader.log[1]? = some e → e.term ≠ 1 := by
  have hsent : ∀ i ∈ [1, 2], (⟨0, i, .appendEntries 1 0 0 [⟨1, []⟩] 0⟩ : Envelope) ∈
      System.opened.sent := by
    decide +kernel
  have hmuted : System.Muted (· == 0) .opened System.bypass := by
    intro i now j msg fate hact hj _
    obtain rfl : j = 0 := by simpa using hj
    simp [System.bypass] at hact
    rcases hact with ⟨rfl, ⟨_, rfl⟩, _⟩ | ⟨rfl, ⟨_, rfl⟩, _⟩
    · exact hsent 1 (by decide)
    · exact hsent 2 (by decide)
  have haccept : System.stranded.accepted = System.opened.accepted ++ [⟨0, 1, 2, [7]⟩] := by
    decide +kernel
  have hmore : System.stranded.run 3 System.bypass = some .bypassed := (Option.some_get _).symm
  have hnode : System.bypassed.node 1 = some System.otherLeader := (Option.some_get _).symm
  have hcommit : 2 ≤ System.otherLeader.commitIndex := by decide +kernel
  have h := minority_commits_nothing System.run_opening (Option.some_get _).symm haccept
    (by decide) (by decide) hmore hmuted
  exact ⟨hnode, hcommit, h.1 2 rfl, h.2 1 _ hnode hcommit⟩

end Landsraad
