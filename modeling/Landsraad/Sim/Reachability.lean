import Landsraad.Sim.NodeCalls

/-!
# What a run of the simulator reaches

Whatever faults are injected, the cluster mirrors a system that the protocol reaches, and its
nodes are what booting made them and their calls left of it.
-/

namespace Landsraad

open Cluster Run

variable {χ : Type} [Channel χ] {carried : χ → List UInt8 → Prop} {cfg : ClusterConfig}
  {c c' c₀ : Cluster χ} {s : System} {i : Nat} {n n' : Node Disk}

/-! ## The system that is mirrored -/

theorem restart_moved (h : Mirrors carried c s) {r : Except Violation Unit}
    (hr : c.restart i = .ok (c', r)) : Moved carried c s c' := by
  unfold restart at hr
  split at hr
  · cases hr
    exact .still h rfl
  next hn =>
  obtain ⟨c₁, hboot, hr⟩ := Checked.bind_eq_ok.mp hr
  have hmoved := boot_moved h hn hboot
  dsimp only at hr
  split at hr
  · cases hr
  · split at hr <;> cases hr <;> exact hmoved

theorem restartAll_moved {ids : List Nat} (h : Mirrors carried c s) {r : Except Violation Unit}
    (hr : restartAll ids c = .ok (c', r)) : Moved carried c s c' := by
  induction ids generalizing c s with
  | nil =>
    cases hr
    exact .still h rfl
  | cons i is ih =>
    obtain ⟨⟨c₁, r₁⟩, hi, hr⟩ := Checked.bind_eq_ok.mp hr
    have hmoved := restart_moved h hi
    cases r₁ with
    | ok u => exact hmoved.bind fun _ hm _ => ih hm hr
    | error v =>
      cases hr
      exact hmoved

theorem injectCrashes_moved (h : Mirrors carried c s) {f : Faults} {d : Draws}
    {r : Except Violation Unit} (hr : c.injectCrashes f d = .ok (c', r)) :
    Moved carried c s c' := by
  obtain ⟨c₁, hcrash, hr⟩ := Checked.bind_eq_ok.mp hr
  have hcrashed : Moved carried c s c₁ := by
    split at hcrash
    · obtain ⟨i, _, rfl⟩ := Checked.map_eq_ok.mp hcrash
      exact crash_moved h i
    · cases hcrash
      exact .still h rfl
  split at hr
  · obtain ⟨i, _, hr⟩ := Checked.bind_eq_ok.mp hr
    exact hcrashed.bind fun _ hm _ => restart_moved hm hr
  · cases hr
    exact hcrashed

theorem injected_moved (hχ : Channel.Faithful χ carried) (h : Mirrors carried c s) {d : Draws}
    {r : Except Violation Unit} (hr : c.injected d = .ok (c', r)) : Moved carried c s c' := by
  obtain ⟨now, hnow, hr⟩ := Checked.bind_eq_ok.mp hr
  obtain ⟨⟨c₁, r₁⟩, hcrash, hr⟩ := Checked.bind_eq_ok.mp hr
  have hlater : Moved carried c s { c with now } := .still ⟨h.slots, h.sent, h.fits⟩ rfl
  have hcrashed : Moved carried c s c₁ :=
    hlater.bind fun _ hm _ => injectCrashes_moved hm hcrash
  cases r₁ with
  | error v =>
    cases hr
    exact hcrashed
  | ok u =>
    obtain ⟨c₂, hrest, hr⟩ := Checked.bind_eq_ok.mp hr
    cases hr
    exact hcrashed.bind fun _ hm _ => injectRest_moved hχ hm hrest

/-- Every call of the simulator is a run of the protocol. -/
theorem apply_runs (hχ : Channel.Faithful χ carried) (h : Mirrors carried c s) {op : Op}
    (hsized : op.Sized) {r : Except Violation Unit} (hr : c.apply op = .ok (c', r)) :
    c'.cfg.n = c.cfg.n ∧ ∃ s' acts, s.run c.cfg.n acts = some s' ∧ Mirrors carried c' s' := by
  have hof : ∀ {c₁ : Cluster χ}, Moved carried c s c₁ →
      c₁.cfg.n = c.cfg.n ∧ ∃ s' acts, s.run c.cfg.n acts = some s' ∧ Mirrors carried c₁ s' := by
    rintro c₁ ⟨s', acts, hrun, hm, hb, _⟩
    exact ⟨congrArg Books.size hb, s', acts, hrun, hm⟩
  by_cases hstep : ∃ d, op = .step d
  · obtain ⟨d, rfl⟩ := hstep
    rcases step_cases hr with ⟨v, hinjected, _⟩ | ⟨c₁, c₂, hinjected, hexchange, halike⟩
    · exact hof (injected_moved hχ h hinjected)
    · have hmoved : Moved carried c s c₂ :=
        (injected_moved hχ h hinjected).bind fun _ hm _ => exchange_moved hχ hm hexchange
      obtain ⟨hsize, s', acts, hrun, hm⟩ := hof hmoved
      exact ⟨by rw [halike.cfg]; exact hsize, s', acts, hrun, hm.same halike.toSameNodes⟩
  · rcases apply_cases (not_exists.mp hstep) hr with
      ⟨_, ⟨i, rfl⟩ | ⟨b, rfl⟩ | ⟨command, a, rfl, hp⟩⟩ | ⟨i, hr⟩ | hr
    · exact hof (crash_moved h i)
    · exact hof (.still ⟨h.slots, h.sent, h.fits⟩ rfl)
    · exact hof (propose_moved hχ h hsized hp)
    · exact hof (restart_moved h hr)
    · have hstart : Moved carried c s
          ({ c with cfg := { c.cfg with faults := .none } } : Cluster χ).heal :=
        .still ⟨h.slots, h.sent, h.fits⟩ rfl
      exact hof (hstart.bind fun _ hm _ => restartAll_moved hm hr)

theorem new_reached (hχ : Channel.Faithful χ carried) (h : Cluster.new cfg = .ok c) :
    c.cfg.n = cfg.n ∧
      ∃ s acts, System.initial.run cfg.n acts = some s ∧ Mirrors carried c s := by
  unfold Cluster.new at h
  generalize hc₀ : Cluster.mk cfg _ _ _ _ _ _ _ _ _ _ = c₀ at h
  have hmirrors : Mirrors carried c₀ .initial := by
    subst hc₀
    exact ⟨rfl, fun i j b m hb => absurd hb (hχ.new _ b), fun _ => ⟨by decide, by decide, nofun⟩⟩
  have hdown : ∀ i ∈ List.range cfg.n, c₀.nodes i = none := by
    subst hc₀
    exact fun _ _ => rfl
  obtain ⟨s, acts, hrun, hm, hb, _⟩ := bootAll_moved hmirrors List.nodup_range hdown h
  have hsize : c.cfg.n = c₀.cfg.n := congrArg Books.size hb
  subst hc₀
  exact ⟨hsize, s, acts, hrun, hm⟩

/-- Every cluster of a run mirrors a system that the protocol reaches. -/
theorem exec_reached (hχ : Channel.Faithful χ carried) (hnew : Cluster.new cfg = .ok c₀)
    {ops : List Op} (hsized : ∀ op ∈ ops, op.Sized) (hrun : exec next c₀ ops = some c) :
    c.cfg.n = cfg.n ∧
      ∃ s acts, System.initial.run cfg.n acts = some s ∧ Mirrors carried c s := by
  refine exec_induction (P := fun x : Cluster χ => x.cfg.n = cfg.n ∧
    ∃ s acts, System.initial.run cfg.n acts = some s ∧ Mirrors carried x s)
    (new_reached hχ hnew) ?_ hrun
  rintro x x' op hop ⟨hsize, s, acts, hacts, hm⟩ hnext
  obtain ⟨r, hr⟩ := next_eq_some hnext
  obtain ⟨hsize', s', acts', hacts', hm'⟩ := apply_runs hχ hm (hsized op hop) hr
  rw [hsize] at hacts'
  exact ⟨hsize'.trans hsize, s', acts ++ acts', exec_append_eq_some.mpr ⟨s, hacts, hacts'⟩, hm'⟩

/-! ## The nodes -/

/-- Every node that is up has the property. -/
def Cluster.Every {χ : Type} (c : Cluster χ) (P : Nat → Node Disk → Prop) : Prop :=
  ∀ i n, c.nodes i = some n → P i n

/-- Booting a node brings the property about, and no call of the node takes it away. -/
structure Lasting (P : Nat → Node Disk → Prop) : Prop where
  boot : ∀ {cfg d now n}, Node.new cfg d now = .ok n → cfg.maxBatch = 32 → P cfg.id n
  call : ∀ {i n call n' out answer}, P i n → n.call call = .ok (n', out, answer) → P i n'

section Every

variable {P : Nat → Node Disk → Prop}

omit [Channel χ] in
theorem Cluster.Every.of_subset (h : c.Every P)
    (hsub : ∀ i n, c'.nodes i = some n → c.nodes i = some n) : c'.Every P :=
  fun i n hn => h i n (hsub i n hn)

omit [Channel χ] in
theorem Cluster.Every.setNode (h : c.Every P) (hn : P i n) : (c.setNode i (some n)).Every P := by
  intro j m hm
  by_cases hj : j = i
  · subst hj
    have hm : some n = some m := by simpa [Cluster.setNode] using hm
    cases hm
    exact hn
  · exact h j m (by simpa [Cluster.setNode, hj] using hm)

omit [Channel χ] in
theorem Cluster.Every.crash (h : c.Every P) (i : Nat) : (c.crash i).Every P := by
  unfold Cluster.crash
  split
  · exact h
  · refine h.of_subset fun j m hm => ?_
    by_cases hj : j = i
    · subst hj
      simp [Cluster.setNode] at hm
    · simpa [Cluster.setNode, hj] using hm

theorem Cluster.Every.route (h : c.Every P) (i : Nat) (out : List Outgoing) :
    (c.route i out).Every P := by
  obtain ⟨links, hlinks⟩ := route_eq c i out
  rw [hlinks]
  exact h

theorem Cluster.Every.serve (h : c.Every P) (hP : Lasting P) {a : Nat × Call}
    (hs : c.serve a = some c') : c'.Every P := by
  cases hn : c.nodes a.1 with
  | none =>
    simp only [Cluster.serve, hn] at hs
    cases hs
    exact h
  | some n =>
    obtain ⟨n', out, answer, hcall, _, rfl⟩ := serve_up hn hs
    exact (h.setNode (hP.call (h a.1 n hn) hcall)).route _ _

omit [Channel χ] in
theorem Cluster.Every.boot (h : c.Every P) (hP : Lasting P) (hb : c.boot i = .ok c') :
    c'.Every P := by
  obtain ⟨n, hnew, hb⟩ := Checked.bind_eq_ok.mp hb
  cases hb
  exact h.setNode (hP.boot hnew rfl)

omit [Channel χ] in
theorem Cluster.Every.bootAll {ids : List Nat} (h : c.Every P) (hP : Lasting P)
    (hb : bootAll ids c = .ok c') : c'.Every P := by
  induction ids generalizing c with
  | nil =>
    cases hb
    exact h
  | cons i is ih =>
    obtain ⟨c₁, hboot, hb⟩ := Checked.bind_eq_ok.mp hb
    exact ih (h.boot hP hboot) hb

omit [Channel χ] in
theorem Cluster.Every.restart (h : c.Every P) (hP : Lasting P) {r : Except Violation Unit}
    (hr : c.restart i = .ok (c', r)) : c'.Every P := by
  unfold Cluster.restart at hr
  split at hr
  · cases hr
    exact h
  obtain ⟨c₁, hboot, hr⟩ := Checked.bind_eq_ok.mp hr
  dsimp only at hr
  split at hr
  · cases hr
  · split at hr <;> cases hr <;> exact h.boot hP hboot

omit [Channel χ] in
theorem Cluster.Every.restartAll {ids : List Nat} (h : c.Every P) (hP : Lasting P)
    {r : Except Violation Unit} (hr : restartAll ids c = .ok (c', r)) : c'.Every P := by
  induction ids generalizing c with
  | nil =>
    cases hr
    exact h
  | cons i is ih =>
    obtain ⟨⟨c₁, r₁⟩, hi, hr⟩ := Checked.bind_eq_ok.mp hr
    cases r₁ with
    | ok u => exact ih (h.restart hP hi) hr
    | error v =>
      cases hr
      exact h.restart hP hi

theorem Cluster.Every.propose (h : c.Every P) (hP : Lasting P) {command : List UInt8}
    {r : Except ProposeError (Nat × Nat)} (hp : c.propose command = .ok (c', r)) :
    c'.Every P := by
  rcases propose_serves hp with rfl | ⟨l, n, _, _, hs⟩
  · exact h
  · exact h.serve hP hs

theorem Cluster.Every.deliver {f : Faults} {d : Draws} {k : Nat}
    {arrivals : List (Nat × Nat × List UInt8)} (h : c.Every P) (hP : Lasting P)
    (hd : deliver f d k arrivals c = .ok c') : c'.Every P := by
  induction arrivals generalizing k c with
  | nil =>
    cases hd
    exact h
  | cons arrival rest ih =>
    obtain ⟨sender, recipient, datagram⟩ := arrival
    rcases deliver_cons hd with ⟨_, hd⟩ | ⟨n, msg, n', out, hn, _, hcall, _, hd⟩
    · exact ih h hd
    have hset := h.setNode (hP.call (h recipient n hn) hcall)
    refine ih ?_ hd
    split
    · exact hset.crash recipient
    · exact hset.route recipient out

theorem Cluster.Every.exchange {f : Faults} {d : Draws} (h : c.Every P) (hP : Lasting P)
    (he : c.exchange f d = .ok c') : c'.Every P := by
  obtain ⟨c₁, hdeliver, htimers⟩ := Checked.bind_eq_ok.mp he
  have hlinks : c.advanceLinks.1.Every P := h
  have hdelivered : c₁.Every P := hlinks.deliver hP hdeliver
  exact exec_induction (P := fun x : Cluster χ => x.Every P) hdelivered
    (fun _ _ _ _ hx hs => hx.serve hP hs) (timers_serves htimers)

omit [Channel χ] in
theorem Cluster.Every.injectCrashes {f : Faults} {d : Draws} {r : Except Violation Unit}
    (h : c.Every P) (hP : Lasting P) (hr : c.injectCrashes f d = .ok (c', r)) : c'.Every P := by
  obtain ⟨c₁, hcrash, hr⟩ := Checked.bind_eq_ok.mp hr
  have hcrashed : c₁.Every P := by
    split at hcrash
    · obtain ⟨i, _, rfl⟩ := Checked.map_eq_ok.mp hcrash
      exact h.crash i
    · cases hcrash
      exact h
  split at hr
  · obtain ⟨i, _, hr⟩ := Checked.bind_eq_ok.mp hr
    exact hcrashed.restart hP hr
  · cases hr
    exact hcrashed

theorem Cluster.Every.injected {d : Draws} {r : Except Violation Unit} (h : c.Every P)
    (hP : Lasting P) (hr : c.injected d = .ok (c', r)) : c'.Every P := by
  obtain ⟨now, _, hr⟩ := Checked.bind_eq_ok.mp hr
  obtain ⟨⟨c₁, r₁⟩, hcrash, hr⟩ := Checked.bind_eq_ok.mp hr
  have hlater : ({ c with now } : Cluster χ).Every P := h
  have hcrashed := hlater.injectCrashes hP hcrash
  cases r₁ with
  | error v =>
    cases hr
    exact hcrashed
  | ok u =>
    obtain ⟨c₂, hrest, hr⟩ := Checked.bind_eq_ok.mp hr
    cases hr
    have hnet : (c₁.network c.cfg.faults d).Every P := by
      unfold Cluster.network
      dsimp only
      split <;> split <;> exact hcrashed
    rcases injectRest_cases hrest with ⟨_, rfl⟩ | ⟨_, command, c₃, r₃, count, _, _, hp, rfl⟩
    · exact hnet
    · have hproposed := hnet.propose hP hp
      exact hproposed

theorem Cluster.Every.apply (h : c.Every P) (hP : Lasting P) {op : Op}
    {r : Except Violation Unit} (hr : c.apply op = .ok (c', r)) : c'.Every P := by
  by_cases hstep : ∃ d, op = .step d
  · obtain ⟨d, rfl⟩ := hstep
    rcases step_cases hr with ⟨v, hinjected, _⟩ | ⟨c₁, c₂, hinjected, hexchange, halike⟩
    · exact h.injected hP hinjected
    · exact ((h.injected hP hinjected).exchange hP hexchange).of_subset
        fun i n hn => by rwa [halike.nodes] at hn
  · rcases apply_cases (not_exists.mp hstep) hr with
      ⟨_, ⟨i, rfl⟩ | ⟨b, rfl⟩ | ⟨command, a, _, hp⟩⟩ | ⟨i, hr⟩ | hr
    · exact h.crash i
    · exact h
    · exact h.propose hP hp
    · exact h.restart hP hr
    · have hstart : (Cluster.heal { c with cfg := { c.cfg with faults := .none } }).Every P := h
      exact hstart.restartAll hP hr

/-- A lasting property holds of every node in every run. -/
theorem exec_every (hP : Lasting P) (hnew : Cluster.new cfg = .ok c₀) {ops : List Op}
    (hrun : exec next c₀ ops = some c) : c.Every P := by
  refine exec_induction (P := fun x : Cluster χ => x.Every P) ?_ ?_ hrun
  · unfold Cluster.new at hnew
    refine Cluster.Every.bootAll ?_ hP hnew
    exact fun i n hn => nomatch hn
  · intro x x' op _ hx hnext
    obtain ⟨r, hr⟩ := next_eq_some hnext
    exact hx.apply hP hr

end Every

/-- No node of the simulator is configured with a batch of its own. -/
theorem lasting_batch : Lasting fun _ n => n.cfg.maxBatch = 32 where
  boot hnew hbatch := by
    obtain ⟨_, _, _, rfl⟩ := Node.new_ok hnew
    exact hbatch
  call h hcall := by
    rw [(Node.call_timed hcall).cfg]
    exact h

end Landsraad
