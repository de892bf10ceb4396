import Landsraad.Sim.Alarms

/-!
# Early datagrams

A link stamps what is sent on it with the tick of its last advance, and hands it out a base
delay after the stamp or later. A step advances every link before it handles anything, so that
what is sent from then on bears the tick of the step. Only the proposal that a step may inject
comes before: its datagrams bear the tick of the step before.
-/

namespace Landsraad

open Cluster Run

/-- The timing of a channel: the tick of its last advance, everything ever sent on it with its
stamp, and for each datagram that an advance hands out the number of the send it comes from. A
datagram is due `baseDelay` ticks after its stamp, and reordering makes it later. -/
structure Channel.Timing (χ : Type) [Channel χ] (baseDelay : Nat) where
  clock : χ → Nat
  sends : χ → List (Nat × List UInt8)
  handed : χ → Nat → List Nat
  clock_new : ∀ seed, clock (Channel.new seed) = 0
  clock_send : ∀ c b, clock (Channel.send c b) = clock c
  clock_advance : ∀ c t, clock (Channel.advance c t).1 = t
  sends_new : ∀ seed, sends (Channel.new seed) = []
  sends_send : ∀ c b, sends (Channel.send c b) = sends c ++ [(clock c, b)]
  sends_advance : ∀ c t, sends (Channel.advance c t).1 = sends c
  handed_length : ∀ c t, (handed c t).length = (Channel.advance c t).2.length
  handed_due : ∀ c t, ∀ k ∈ handed c t, ∃ stamp b, (sends c)[k]? = some (stamp, b) ∧
    stamp + baseDelay ≤ t

/-- A datagram that is handed out has the bytes of the send it comes from, or is damaged. -/
def Channel.Timing.Intact {χ : Type} [Channel χ] {baseDelay : Nat}
    (T : Channel.Timing χ baseDelay) : Prop :=
  ∀ c t, List.Forall₂ (fun b k => b ∈ ((T.sends c)[k]?).map Prod.snd ∨
    Damaged (Channel.frames χ) b) (Channel.advance c t).2 (T.handed c t)

variable {χ : Type} [Channel χ] {baseDelay : Nat}

namespace Channel.Timing

variable (T : Channel.Timing χ baseDelay)

def Carried (c : χ) (b : List UInt8) : Prop := b ∈ (T.sends c).map Prod.snd

theorem faithful (hframe : (Channel.frames χ).Faithful) (hintact : T.Intact) :
    Channel.Faithful χ T.Carried where
  frames := hframe
  new seed b hb := by
    rw [Carried, T.sends_new] at hb
    cases hb
  send c b b' hb := by
    rw [Carried, T.sends_send, List.map_append, List.mem_append] at hb
    rcases hb with hb | hb
    · exact .inr hb
    · exact .inl (List.mem_singleton.mp hb)
  advance c t b hb := by
    rw [Carried, T.sends_advance] at hb
    exact hb
  arrives c t b hb := by
    obtain ⟨p, hp, rfl⟩ := List.getElem_of_mem hb
    refine ((hintact c t).get hp (T.handed_length c t ▸ hp)).imp (fun hsent => ?_) id
    obtain ⟨send, hk, hbytes⟩ := Option.map_eq_some_iff.mp hsent
    exact List.mem_map.mpr ⟨send, List.mem_of_getElem? hk, hbytes⟩

end Channel.Timing

namespace Cluster

/-- The part of a step before the links are advanced. -/
def injected (c : Cluster χ) (d : Draws) : Checked (Checkpoint χ) := do
  let now ← Checked.add c.now 1
  proceed (← { c with now }.injectCrashes c.cfg.faults d) fun c' => do
    let c' ← c'.injectRest c.cfg.faults d
    pure (c', .ok ())

theorem advance_eq (c : Cluster χ) (d : Draws) : c.advance d = (do
    proceed (← c.injected d) fun c' => do
      let c' ← c'.exchange c.cfg.faults d
      pure (c', .ok ())) := by
  unfold advance injected
  cases Checked.add c.now 1 with
  | error p => rfl
  | ok now =>
    simp only [Checked.ok_bind]
    cases ({ c with now } : Cluster χ).injectCrashes c.cfg.faults d with
    | error p => rfl
    | ok r =>
      obtain ⟨c₁, _ | _⟩ := r
      · rfl
      · simp only [Checked.ok_bind, proceed]
        cases c₁.injectRest c.cfg.faults d <;> rfl

/-- The arrivals of all links with the numbers of the sends they come from. -/
def ticketed (T : Channel.Timing χ baseDelay) (c : Cluster χ) :
    List ((Nat × Nat × List UInt8) × Nat) :=
  let ids := List.range c.cfg.n
  ids.flatMap fun sender => ids.flatMap fun recipient =>
    if sender ≠ recipient then
      ((Channel.advance (c.links sender recipient) c.now).2.zip
          (T.handed (c.links sender recipient) c.now)).map
        fun p => ((sender, recipient, p.1), p.2)
    else []

/-- What an advance hands over is what has a ticket. -/
theorem ticketed_fst (T : Channel.Timing χ baseDelay) (c : Cluster χ) :
    (c.ticketed T).map Prod.fst = c.advanceLinks.2 := by
  simp only [ticketed, advanceLinks, List.map_flatMap]
  congr 1
  funext sender
  congr 1
  funext recipient
  split
  · have hlen := T.handed_length (c.links sender recipient) c.now
    rw [List.map_map]
    conv_rhs => rw [← List.map_fst_zip hlen.ge, List.map_map]
    rfl
  · rfl

theorem mem_ticketed {T : Channel.Timing χ baseDelay} {c : Cluster χ} {i j k : Nat}
    {datagram : List UInt8} (h : ((i, j, datagram), k) ∈ c.ticketed T) :
    i < c.cfg.n ∧ j < c.cfg.n ∧ i ≠ j ∧ k ∈ T.handed (c.links i j) c.now := by
  simp only [ticketed, List.mem_flatMap, List.mem_range] at h
  obtain ⟨sender, hs, recipient, hr, h⟩ := h
  split at h
  · next hne =>
    obtain ⟨p, hp, he⟩ := List.mem_map.mp h
    cases he
    exact ⟨hs, hr, hne, (List.of_mem_zip hp).2⟩
  · cases h

/-- Which of the arrivals are handed to a node: one that is up, if the datagram decodes. -/
def handles (f : Faults) (d : Draws) :
    Nat → List ((Nat × Nat × List UInt8) × Nat) → Cluster χ → List (Nat × Nat × Nat)
  | _, [], _ => []
  | p, ((sender, recipient, datagram), k) :: rest, c =>
    let later := match deliver f d p [(sender, recipient, datagram)] c with
      | .ok c' => handles f d (p + 1) rest c'
      | .error _ => []
    match c.nodes recipient, Channel.read χ datagram with
    | some _, some _ => (sender, recipient, k) :: later
    | _, _ => later

theorem mem_handles {f : Faults} {d : Draws} {p : Nat}
    {arrivals : List ((Nat × Nat × List UInt8) × Nat)} {c : Cluster χ} {i j k : Nat}
    (h : (i, j, k) ∈ handles f d p arrivals c) :
    ∃ datagram, ((i, j, datagram), k) ∈ arrivals := by
  induction arrivals generalizing p c with
  | nil => cases h
  | cons arrival rest ih =>
    obtain ⟨⟨sender, recipient, datagram⟩, k'⟩ := arrival
    have hlater : (i, j, k) ∈ (match deliver f d p [(sender, recipient, datagram)] c with
        | .ok c' => handles f d (p + 1) rest c'
        | .error _ => []) →
        ∃ datagram', ((i, j, datagram'), k) ∈ ((sender, recipient, datagram), k') :: rest := by
      intro hmem
      split at hmem
      · obtain ⟨datagram', hin⟩ := ih hmem
        exact ⟨datagram', List.mem_cons_of_mem _ hin⟩
      · cases hmem
    unfold handles at h
    dsimp only at h
    split at h
    · rcases List.mem_cons.mp h with he | h
      · cases he
        exact ⟨_, List.mem_cons_self⟩
      · exact hlater h
    · exact hlater h

/-- The datagrams that a step hands to a node, by sender, recipient and number. -/
def handledIn (T : Channel.Timing χ baseDelay) (c : Cluster χ) (d : Draws) :
    List (Nat × Nat × Nat) :=
  match c.injected d with
  | .ok (c', .ok ()) => handles c.cfg.faults d 0 (c'.ticketed T) c'.advanceLinks.1
  | _ => []

/-- Some call of the run routes the datagram of number `k` from `i` to `j`, and the clock of the
cluster is then at `t`. -/
def RoutedAt (T : Channel.Timing χ baseDelay) (c₀ : Cluster χ) (ops : List Op) (i j k t : Nat) :
    Prop :=
  ∃ xs op c c', xs ++ [op] <+: ops ∧ exec next c₀ xs = some c ∧ c.next op = some c' ∧
    (T.sends (c.links i j)).length ≤ k ∧ k < (T.sends (c'.links i j)).length ∧ t = c'.now

/-- Some step of the run, of clock `t`, hands the datagram of number `k` from `i` to `j`. -/
def HandledAt (T : Channel.Timing χ baseDelay) (c₀ : Cluster χ) (ops : List Op) (i j k t : Nat) :
    Prop :=
  ∃ xs d c, xs ++ [.step d] <+: ops ∧ exec next c₀ xs = some c ∧ (i, j, k) ∈ c.handledIn T d ∧
    t = c.now + 1

def NoEarlyDelivery (T : Channel.Timing χ baseDelay) (c₀ : Cluster χ) (ops : List Op) : Prop :=
  ∀ i j k t t', RoutedAt T c₀ ops i j k t → HandledAt T c₀ ops i j k t' → t + baseDelay ≤ t'

/-- Where a step injects a proposal, no link is open from the leader it goes to, as the injected
crash, restart, partition and heal of the step leave the cluster. -/
def Harmless (c : Cluster χ) : Op → Prop
  | .step d => (c.cfg.faults.propose && d.propose) = true →
      ∀ c₁ r, ({ c with now := c.now + 1 } : Cluster χ).injectCrashes c.cfg.faults d = .ok (c₁, r) →
        ∀ l, (c₁.network c.cfg.faults d).leader = some l →
          ∀ p < c.cfg.n, p ≠ l → (c₁.network c.cfg.faults d).blocked l p = true
  | _ => True

/-- The call is no step that ends, before its links advance, because the restart that it injects
reports a violation. -/
def Advances (c : Cluster χ) : Op → Prop
  | .step d => ∀ c' v, c.injected d ≠ .ok (c', .error v)
  | _ => True

end Cluster

variable {T : Channel.Timing χ baseDelay} {c c' c'' : Cluster χ} {i : Nat}

/-! ## What the calls do to the links -/

/-- The clock, the size, the links and the number of the next command stay. -/
structure Unrouted (c c' : Cluster χ) : Prop where
  now : c'.now = c.now
  size : c'.cfg.n = c.cfg.n
  links : c'.links = c.links
  count : c'.nextCommand = c.nextCommand

omit [Channel χ] in
theorem Unrouted.refl (c : Cluster χ) : Unrouted c c := ⟨rfl, rfl, rfl, rfl⟩

omit [Channel χ] in
theorem Unrouted.trans (h : Unrouted c c') (h' : Unrouted c' c'') : Unrouted c c'' :=
  ⟨h'.now.trans h.now, h'.size.trans h.size, h'.links.trans h.links, h'.count.trans h.count⟩

omit [Channel χ] in
theorem crash_unrouted (c : Cluster χ) (i : Nat) : Unrouted c (c.crash i) := by
  unfold crash
  split <;> exact ⟨rfl, rfl, rfl, rfl⟩

omit [Channel χ] in
theorem boot_unrouted (h : c.boot i = .ok c') : Unrouted c c' := by
  obtain ⟨_, n, _, _, _, _, rfl⟩ := boot_ok h
  exact ⟨rfl, rfl, rfl, rfl⟩

omit [Channel χ] in
theorem bootAll_unrouted {ids : List Nat} (h : bootAll ids c = .ok c') : Unrouted c c' := by
  induction ids generalizing c with
  | nil =>
    cases h
    exact .refl _
  | cons i is ih =>
    obtain ⟨c₁, hboot, h⟩ := Checked.bind_eq_ok.mp h
    exact (boot_unrouted hboot).trans (ih h)

omit [Channel χ] in
theorem restart_unrouted {r : Except Violation Unit} (h : c.restart i = .ok (c', r)) :
    Unrouted c c' := by
  unfold restart at h
  split at h
  · cases h
    exact .refl c
  obtain ⟨c₁, hboot, h⟩ := Checked.bind_eq_ok.mp h
  dsimp only at h
  split at h
  · cases h
  · split at h <;> cases h <;> exact boot_unrouted hboot

omit [Channel χ] in
theorem restartAll_unrouted {ids : List Nat} {r : Except Violation Unit}
    (h : restartAll ids c = .ok (c', r)) : Unrouted c c' := by
  induction ids generalizing c with
  | nil =>
    cases h
    exact .refl _
  | cons i is ih =>
    obtain ⟨⟨c₁, r₁⟩, hi, h⟩ := Checked.bind_eq_ok.mp h
    cases r₁ with
    | ok u => exact (restart_unrouted hi).trans (ih h)
    | error v =>
      cases h
      exact restart_unrouted hi

omit [Channel χ] in
theorem injectCrashes_unrouted {f : Faults} {d : Draws} {r : Except Violation Unit}
    (h : c.injectCrashes f d = .ok (c', r)) : Unrouted c c' := by
  obtain ⟨c₁, hcrash, h⟩ := Checked.bind_eq_ok.mp h
  have hcrashed : Unrouted c c₁ := by
    split at hcrash
    · obtain ⟨i, _, rfl⟩ := Checked.map_eq_ok.mp hcrash
      exact crash_unrouted c i
    · cases hcrash
      exact .refl c
  split at h
  · obtain ⟨i, _, h⟩ := Checked.bind_eq_ok.mp h
    exact hcrashed.trans (restart_unrouted h)
  · cases h
    exact hcrashed

omit [Channel χ] in
theorem network_unrouted (c : Cluster χ) (f : Faults) (d : Draws) : Unrouted c (c.network f d) := by
  unfold network
  dsimp only
  split <;> split <;> exact ⟨rfl, rfl, rfl, rfl⟩

omit [Channel χ] in
theorem eachNode_keeps {P : Cluster χ → Prop} {check : Nat → Cluster χ → Checkpoint χ}
    {ids : List Nat} (h : ∀ i c, P c → P (check i c).1) (hc : P c) :
    P (eachNode check ids c).1 := by
  induction ids generalizing c with
  | nil => exact hc
  | cons i is ih =>
    have hi := h i c hc
    rw [eachNode]
    split
    · next c₁ hcheck =>
      rw [hcheck] at hi
      exact ih hi
    · next c₁ v hcheck =>
      rw [hcheck] at hi
      exact hi

/-- The two clusters differ in the books of the checker at most. -/
structure Alike {χ : Type} (c c' : Cluster χ) : Prop extends SameNodes c c' where
  now : c'.now = c.now
  blocked : c'.blocked = c.blocked
  count : c'.nextCommand = c.nextCommand

omit [Channel χ] in
theorem Alike.refl (c : Cluster χ) : Alike c c := ⟨.refl c, rfl, rfl, rfl⟩

omit [Channel χ] in
theorem Alike.trans (h : Alike c c') (h' : Alike c' c'') : Alike c c'' :=
  ⟨h.toSameNodes.trans h'.toSameNodes, h'.now.trans h.now, h'.blocked.trans h.blocked,
    h'.count.trans h.count⟩

omit [Channel χ] in
theorem Alike.unrouted (h : Alike c c') : Unrouted c c' :=
  ⟨h.now, congrArg ClusterConfig.n h.cfg, h.links, h.count⟩

omit [Channel χ] in
theorem checkTerm_alike (i : Nat) (c : Cluster χ) : Alike c (checkTerm i c).1 := by
  unfold checkTerm
  dsimp only
  split
  · exact .refl c
  · split
    · exact .refl c
    · split
      · split <;> exact ⟨⟨rfl, rfl, rfl, rfl⟩, rfl, rfl, rfl⟩
      · exact ⟨⟨rfl, rfl, rfl, rfl⟩, rfl, rfl, rfl⟩

omit [Channel χ] in
theorem checkCommitted_alike (i : Nat) (c : Cluster χ) : Alike c (checkCommitted i c).1 := by
  unfold checkCommitted
  split
  · exact .refl c
  · split
    · exact .refl c
    · split
      · exact .refl c
      · exact ⟨⟨rfl, rfl, rfl, rfl⟩, rfl, rfl, rfl⟩

omit [Channel χ] in
theorem checkInvariants_alike (c : Cluster χ) : Alike c c.checkInvariants.1 := by
  have hterms : ∀ c₁, Alike c c₁ → Alike c (eachNode checkTerm (List.range c.cfg.n) c₁).1 :=
    fun c₁ => eachNode_keeps fun i c' h => h.trans (checkTerm_alike i c')
  have hcommitted : ∀ c₁, Alike c c₁ →
      Alike c (eachNode checkCommitted (List.range c.cfg.n) c₁).1 :=
    fun c₁ => eachNode_keeps fun i c' h => h.trans (checkCommitted_alike i c')
  have hleaders : ∀ c₁ : Cluster χ, (eachNode checkLeader (List.range c.cfg.n) c₁).1 = c₁ :=
    fun c₁ => eachNode_fst (checkLeader_fst c₁)
  have hmatching : ∀ c₁ : Cluster χ, (eachNode (fun p =>
      eachNode (checkMatching p) ((List.range c.cfg.n).drop (p + 1))) (List.range c.cfg.n) c₁).1 =
      c₁ :=
    fun c₁ => eachNode_fst fun p => eachNode_fst fun q => checkMatching_fst p q c₁
  unfold checkInvariants
  dsimp only
  have h₁ := hterms c (.refl c)
  split
  · next c₁ v he =>
    rw [he] at h₁
    exact h₁
  next c₁ he =>
  rw [he] at h₁
  have h₂ := hcommitted c₁ h₁
  split
  · next c₂ v he =>
    rw [he] at h₂
    exact h₂
  next c₂ he =>
  rw [he] at h₂
  have h₃ := hleaders c₂
  split
  · next c₃ v he =>
    rw [he] at h₃
    obtain rfl : c₃ = c₂ := h₃
    exact h₂
  next c₃ he =>
  rw [he] at h₃
  obtain rfl : c₃ = c₂ := h₃
  rw [hmatching]
  exact h₂

/-! ## What the calls send -/

/-- The clock stays, and a link that is up to date only gains datagrams of the present tick. -/
structure Grows (T : Channel.Timing χ baseDelay) (c c' : Cluster χ) : Prop where
  now : c'.now = c.now
  size : c'.cfg.n = c.cfg.n
  links : ∀ i j, T.clock (c.links i j) = c.now → T.clock (c'.links i j) = c.now ∧
    ∃ new, T.sends (c'.links i j) = T.sends (c.links i j) ++ new ∧ ∀ p ∈ new, p.1 = c.now

theorem Unrouted.grows (h : Unrouted c c') : Grows T c c' := by
  refine ⟨h.now, h.size, fun i j hclock => ?_⟩
  rw [h.links]
  exact ⟨hclock, [], (List.append_nil _).symm, by simp⟩

theorem Grows.trans (h : Grows T c c') (h' : Grows T c' c'') : Grows T c c'' := by
  refine ⟨h'.now.trans h.now, h'.size.trans h.size, fun i j hclock => ?_⟩
  obtain ⟨hclock', new, hnew, hstamp⟩ := h.links i j hclock
  obtain ⟨hclock'', new', hnew', hstamp'⟩ := h'.links i j (hclock'.trans h.now.symm)
  refine ⟨hclock''.trans h.now, new ++ new', ?_, fun p hp => ?_⟩
  · rw [hnew', hnew, List.append_assoc]
  · rcases List.mem_append.mp hp with hp | hp
    · exact hstamp p hp
    · exact (hstamp' p hp).trans h.now

/-- The links of `i` that are open carry `out` under the stamps of their clocks, and nothing else
has changed. -/
structure Routed (T : Channel.Timing χ baseDelay) (c : Cluster χ) (i : Nat) (out : List Outgoing)
    (c' : Cluster χ) : Prop where
  now : c'.now = c.now
  cfg : c'.cfg = c.cfg
  blocked : c'.blocked = c.blocked
  nodes : c'.nodes = c.nodes
  clock : ∀ p q, T.clock (c'.links p q) = T.clock (c.links p q)
  sends : ∀ p q, ∃ new, T.sends (c'.links p q) = T.sends (c.links p q) ++ new ∧
    ∀ x ∈ new, x.1 = T.clock (c.links p q) ∧ p = i ∧
      ∃ m, ⟨q, m⟩ ∈ out ∧ x.2 = encodeMessage (Channel.frames χ) m
  reached : ∀ o ∈ out, c.blocked i o.recipient = false →
    (T.clock (c.links i o.recipient), encodeMessage (Channel.frames χ) o.message) ∈
      T.sends (c'.links i o.recipient)

theorem Routed.silent (c : Cluster χ) (i : Nat) : Routed T c i [] c where
  now := rfl
  cfg := rfl
  blocked := rfl
  nodes := rfl
  clock _ _ := rfl
  sends _ _ := ⟨[], by simp⟩
  reached := by simp

theorem Routed.append {out out' : List Outgoing} (h : Routed T c i out c')
    (h' : Routed T c' i out' c'') : Routed T c i (out ++ out') c'' where
  now := h'.now.trans h.now
  cfg := h'.cfg.trans h.cfg
  blocked := h'.blocked.trans h.blocked
  nodes := h'.nodes.trans h.nodes
  clock p q := (h'.clock p q).trans (h.clock p q)
  sends p q := by
    obtain ⟨new, hnew, hsent⟩ := h.sends p q
    obtain ⟨new', hnew', hsent'⟩ := h'.sends p q
    refine ⟨new ++ new', by rw [hnew', hnew, List.append_assoc], fun x hx => ?_⟩
    rcases List.mem_append.mp hx with hx | hx
    · obtain ⟨hstamp, hp, m, ho, hbytes⟩ := hsent x hx
      exact ⟨hstamp, hp, m, List.mem_append_left _ ho, hbytes⟩
    · obtain ⟨hstamp, hp, m, ho, hbytes⟩ := hsent' x hx
      exact ⟨hstamp.trans (h.clock p q), hp, m, List.mem_append_right _ ho, hbytes⟩
  reached o ho hopen := by
    rcases List.mem_append.mp ho with ho | ho
    · obtain ⟨new, hnew, _⟩ := h'.sends i o.recipient
      rw [hnew]
      exact List.mem_append_left _ (h.reached o ho hopen)
    · rw [← h.blocked] at hopen
      rw [← h.clock]
      exact h'.reached o ho hopen

theorem blocked_routed {o : Outgoing} (h : c.blocked i o.recipient = true) :
    Routed T c i [o] c where
  now := rfl
  cfg := rfl
  blocked := rfl
  nodes := rfl
  clock _ _ := rfl
  sends _ _ := ⟨[], by simp⟩
  reached := by simp [h]

theorem send_routed (c : Cluster χ) (i : Nat) (o : Outgoing) : Routed T c i [o] { c with
    links := Function.update c.links i (Function.update (c.links i) o.recipient
      (Channel.send (c.links i o.recipient) (encodeMessage (Channel.frames χ) o.message))) } where
  now := rfl
  cfg := rfl
  blocked := rfl
  nodes := rfl
  clock p q := by
    by_cases hp : p = i
    · subst hp
      by_cases hq : q = o.recipient
      · subst hq
        simp [T.clock_send]
      · simp [hq]
    · simp [hp]
  sends p q := by
    by_cases hp : p = i
    · subst hp
      by_cases hq : q = o.recipient
      · subst hq
        exact ⟨[(T.clock (c.links p o.recipient), encodeMessage (Channel.frames χ) o.message)],
          by simp [T.sends_send], by simpa using ⟨o.message, rfl, rfl⟩⟩
      · exact ⟨[], by simp [hq], by simp⟩
    · exact ⟨[], by simp [hp], by simp⟩
  reached := by simp [T.sends_send]

theorem route_routed (c : Cluster χ) (i : Nat) (out : List Outgoing) :
    Routed T c i out (c.route i out) := by
  induction out generalizing c with
  | nil => exact .silent c i
  | cons o rest ih =>
    unfold route
    split
    · next hblocked => exact (blocked_routed hblocked).append (ih c)
    · exact (send_routed c i o).append (ih _)

theorem Routed.grows {out : List Outgoing} (h : Routed T c i out c') : Grows T c c' := by
  refine ⟨h.now, congrArg ClusterConfig.n h.cfg, fun p q hclock => ⟨(h.clock p q).trans hclock, ?_⟩⟩
  obtain ⟨new, hnew, hsent⟩ := h.sends p q
  exact ⟨new, hnew, fun x hx => (hsent x hx).1.trans hclock⟩

theorem route_grows (c : Cluster χ) (i : Nat) (out : List Outgoing) :
    Grows T c (c.route i out) := (route_routed c i out).grows

theorem setNode_route_grows (c : Cluster χ) (i j : Nat) (n : Option (Node Disk))
    (out : List Outgoing) : Grows T c ((c.setNode i n).route j out) := by
  have hset : Grows T c (c.setNode i n) := Unrouted.grows ⟨rfl, rfl, rfl, rfl⟩
  exact hset.trans (route_grows _ j out)

theorem propose_grows {command : List UInt8} {r : Except ProposeError (Nat × Nat)}
    (h : c.propose command = .ok (c', r)) : Grows T c c' := by
  rcases propose_cases h with rfl | ⟨l, _, n', out, _, _, _, _, _, rfl⟩
  · exact (Unrouted.refl _).grows
  · exact setNode_route_grows c l l (some n') out

theorem deliver_grows {f : Faults} {d : Draws} {k : Nat}
    {arrivals : List (Nat × Nat × List UInt8)} (h : deliver f d k arrivals c = .ok c') :
    Grows T c c' := by
  induction arrivals generalizing k c with
  | nil =>
    cases h
    exact (Unrouted.refl _).grows
  | cons arrival rest ih =>
    obtain ⟨sender, recipient, datagram⟩ := arrival
    rcases deliver_cons h with ⟨_, h⟩ | ⟨_, _, n', out, _, _, _, _, h⟩
    · exact ih h
    refine Grows.trans ?_ (ih h)
    split
    · have hset : Unrouted c (c.setNode recipient (some n')) := ⟨rfl, rfl, rfl, rfl⟩
      exact (hset.trans (crash_unrouted _ recipient)).grows
    · exact setNode_route_grows c recipient recipient (some n') out

theorem timers_grows {ids : List Nat} (h : timers ids c = .ok c') : Grows T c c' := by
  induction ids generalizing c with
  | nil =>
    cases h
    exact (Unrouted.refl _).grows
  | cons i is ih =>
    rcases timers_cons h with ⟨_, h⟩ | ⟨_, n', out, _, _, _, h⟩
    · exact ih h
    · exact (setNode_route_grows c i i (some n') out).trans (ih h)

/-! ## Harmless calls -/

/-- The links between different nodes of the cluster are the same. -/
def SameLinks (c c' : Cluster χ) : Prop :=
  ∀ i < c.cfg.n, ∀ j < c.cfg.n, i ≠ j → c'.links i j = c.links i j

/-- Every link between different nodes has the clock of the cluster. -/
def Synced (T : Channel.Timing χ baseDelay) (c : Cluster χ) : Prop :=
  ∀ i < c.cfg.n, ∀ j < c.cfg.n, i ≠ j → T.clock (c.links i j) = c.now

/-- Routing over links that are all cut changes nothing. -/
theorem route_sameLinks {out : List Outgoing}
    (h : ∀ p < c.cfg.n, p ≠ i → c.blocked i p = true) : SameLinks c (c.route i out) := by
  induction out generalizing c with
  | nil => exact fun _ _ _ _ _ => rfl
  | cons o rest ih =>
    unfold route
    split
    · exact ih h
    · next hopen =>
      intro p hp q hq hne
      have hroute := @ih { c with
        links := Function.update c.links i (Function.update (c.links i) o.recipient
          (Channel.send (c.links i o.recipient)
            (encodeMessage (Channel.frames χ) o.message))) } h p hp q hq hne
      refine hroute.trans ?_
      by_cases hpi : p = i
      · subst hpi
        have hqo : q ≠ o.recipient := by
          rintro rfl
          exact hopen (h _ hq (Ne.symm hne))
        dsimp only
        rw [Function.update_self, Function.update_of_ne hqo]
      · dsimp only
        rw [Function.update_of_ne hpi]

theorem propose_sameLinks {command : List UInt8} {r : Except ProposeError (Nat × Nat)}
    (hcut : ∀ l, c.leader = some l → ∀ p < c.cfg.n, p ≠ l → c.blocked l p = true)
    (h : c.propose command = .ok (c', r)) : SameLinks c c' := by
  rcases propose_cases h with rfl | ⟨l, _, n', out, _, hl, _, _, _, rfl⟩
  · exact fun _ _ _ _ _ => rfl
  · have hset : SameLinks (c.setNode l (some n')) ((c.setNode l (some n')).route l out) :=
      route_sameLinks (hcut l hl)
    exact hset

theorem injectRest_grows {f : Faults} {d : Draws} (h : c.injectRest f d = .ok c') :
    Grows T c c' ∧
      ((f.propose && d.propose) = false ∨ (∀ l, (c.network f d).leader = some l →
        ∀ p < c.cfg.n, p ≠ l → (c.network f d).blocked l p = true) → SameLinks c c') := by
  have hnet := network_unrouted c f d
  rcases injectRest_cases h with ⟨_, rfl⟩ | ⟨hpropose, command, c₁, r, count, _, _, hp, rfl⟩
  · refine ⟨hnet.grows, fun _ i _ j _ _ => ?_⟩
    rw [hnet.links]
  · have hcount : Grows T c₁ { c₁ with nextCommand := count } :=
      ⟨rfl, rfl, fun _ _ hclock => ⟨hclock, [], (List.append_nil _).symm, by simp⟩⟩
    refine ⟨(hnet.grows.trans (propose_grows hp)).trans hcount, fun hcase => ?_⟩
    rcases hcase with hno | hcut
    · rw [hpropose] at hno
      cases hno
    · intro i hi j hj hne
      rw [← hnet.size] at hi hj
      have hsame := propose_sameLinks (by rw [hnet.size]; exact hcut) hp i hi j hj hne
      rw [← hnet.links]
      exact hsame

/-- What a step injects before its links advance. -/
theorem injected_cases {d : Draws} (h : c.injected d = .ok (c', .ok ())) :
    ∃ c₁, ({ c with now := c.now + 1 } : Cluster χ).injectCrashes c.cfg.faults d =
        .ok (c₁, .ok ()) ∧ c₁.injectRest c.cfg.faults d = .ok c' := by
  obtain ⟨now, hnow, h⟩ := Checked.bind_eq_ok.mp h
  obtain ⟨_, rfl⟩ := Checked.add_eq_ok.mp hnow
  obtain ⟨⟨c₁, r₁⟩, hcrash, h⟩ := Checked.bind_eq_ok.mp h
  cases r₁ with
  | error v => cases h
  | ok u =>
    obtain ⟨c₂, hrest, h⟩ := Checked.bind_eq_ok.mp h
    cases h
    exact ⟨c₁, hcrash, hrest⟩

theorem injected_now_size (T : Channel.Timing χ baseDelay) {d : Draws}
    (h : c.injected d = .ok (c', .ok ())) : c'.now = c.now + 1 ∧ c'.cfg.n = c.cfg.n := by
  obtain ⟨c₁, hcrash, hrest⟩ := injected_cases h
  have hfirst := injectCrashes_unrouted hcrash
  have hgrows : Grows T c₁ c' := (injectRest_grows hrest).1
  exact ⟨hgrows.now.trans hfirst.now, hgrows.size.trans hfirst.size⟩

/-- A harmless step comes to advance the links as the calls before it left them. -/
theorem injected_sameLinks (T : Channel.Timing χ baseDelay) {d : Draws}
    (hh : c.Harmless (.step d)) (h : c.injected d = .ok (c', .ok ())) : SameLinks c c' := by
  obtain ⟨c₁, hcrash, hrest⟩ := injected_cases h
  have hfirst := injectCrashes_unrouted hcrash
  have hsize : c₁.cfg.n = c.cfg.n := hfirst.size
  obtain ⟨_, hsame⟩ := (injectRest_grows hrest : Grows T c₁ c' ∧ _)
  intro i hi j hj hne
  have hcut : (c.cfg.faults.propose && d.propose) = false ∨
      (∀ l, (c₁.network c.cfg.faults d).leader = some l →
        ∀ p < c₁.cfg.n, p ≠ l → (c₁.network c.cfg.faults d).blocked l p = true) := by
    cases hp : c.cfg.faults.propose && d.propose with
    | false => exact .inl rfl
    | true =>
      right
      rw [hsize]
      exact hh hp c₁ _ hcrash
  rw [hsame hcut i (by rw [hsize]; exact hi) j (by rw [hsize]; exact hj) hne, hfirst.links]

/-- From the advance of the links on, everything is stamped with the tick of the step. -/
theorem exchange_synced {f : Faults} {d : Draws} (h : c.exchange f d = .ok c') :
    c'.now = c.now ∧ c'.cfg.n = c.cfg.n ∧ Synced T c' ∧
      ∀ i < c.cfg.n, ∀ j < c.cfg.n, i ≠ j → ∃ new,
        T.sends (c'.links i j) = T.sends (c.links i j) ++ new ∧ ∀ p ∈ new, p.1 = c.now := by
  obtain ⟨c₁, hdeliver, htimers⟩ := Checked.bind_eq_ok.mp h
  have hgrows : Grows T c.advanceLinks.1 c' := (deliver_grows hdeliver).trans (timers_grows htimers)
  have hlink : ∀ i < c.cfg.n, ∀ j < c.cfg.n, i ≠ j →
      c.advanceLinks.1.links i j = (Channel.advance (c.links i j) c.now).1 :=
    fun i hi j hj hne => if_pos ⟨hi, hj, hne⟩
  have hclock : ∀ i < c.cfg.n, ∀ j < c.cfg.n, i ≠ j →
      T.clock (c.advanceLinks.1.links i j) = c.now := by
    intro i hi j hj hne
    rw [hlink i hi j hj hne, T.clock_advance]
  have hsize : c'.cfg.n = c.cfg.n := hgrows.size
  have hnow : c'.now = c.now := hgrows.now
  refine ⟨hnow, hsize, fun i hi j hj hne => ?_, fun i hi j hj hne => ?_⟩
  · rw [hsize] at hi hj
    rw [hnow]
    exact (hgrows.links i j (hclock i hi j hj hne)).1
  · obtain ⟨_, new, hnew, hstamp⟩ := hgrows.links i j (hclock i hi j hj hne)
    rw [hlink i hi j hj hne, T.sends_advance] at hnew
    exact ⟨new, hnew, hstamp⟩

/-! ## Runs -/

/-- The links of the cluster, of `size` nodes, are in step with its clock. -/
structure InStep (T : Channel.Timing χ baseDelay) (size : Nat) (c : Cluster χ) : Prop where
  size_eq : c.cfg.n = size
  synced : Synced T c

/-- What holds of the cluster between calls. -/
structure Running (T : Channel.Timing χ baseDelay) (size : Nat) (c : Cluster χ) : Prop
    extends InStep T size c where
  tracked : ∃ a s, Tracked T.Carried a s c

/-- A call adds to the links only what bears the tick of the clock. -/
def StampsNow (T : Channel.Timing χ baseDelay) (size : Nat) (c c' : Cluster χ) : Prop :=
  ∀ i < size, ∀ j < size, i ≠ j → ∃ new,
    T.sends (c'.links i j) = T.sends (c.links i j) ++ new ∧ ∀ p ∈ new, p.1 = c'.now

variable {size : Nat} {op : Op}

/-- Whatever a call reports, the cluster stays tracked. -/
theorem apply_tracked {carried : χ → List UInt8 → Prop} (hχ : Channel.Faithful χ carried)
    {a : History} {s : System} (h : Tracked carried a s c) (hsized : op.Sized)
    {r : Except Violation Unit} (hr : c.apply op = .ok (c', r)) :
    c'.cfg.n = c.cfg.n ∧ ∃ a' s', Tracked carried a' s' c' := by
  by_cases hstep : ∃ d, op = .step d
  · obtain ⟨d, rfl⟩ := hstep
    obtain ⟨⟨c₁, r₁⟩, hadvance, hr⟩ := Checked.bind_eq_ok.mp hr
    obtain ⟨rfl, a₁, s₁, h₁, _, hbooks⟩ := advance_quiet hχ h hadvance
    obtain ⟨c₂, hgathered, hcheck, heq, _⟩ := checkInvariants_spec h₁.checkable
    have hresult : c₁.checkInvariants = (c', r) := Except.ok.inj hr
    rw [hresult] at heq
    obtain rfl : c' = c₂ := heq
    have hsize : c₁.cfg.n = c.cfg.n := congrArg Books.size hbooks
    have hsame := hgathered.same
    rw [hsame.cfg]
    exact ⟨hsize, a₁, s₁, by rw [hsame.cfg]; exact h₁.system, h₁.mirrors.same hsame, hcheck.books⟩
  · obtain ⟨_, a', s', h', _, hbooks⟩ := call_quiet hχ h hsized (not_exists.mp hstep) hr
    exact ⟨congrArg Books.size hbooks, a', s', h'⟩

/-- Outside of steps nothing moves the clock, and what is sent is stamped with it. -/
theorem apply_grows (hop : ∀ d, op ≠ .step d) {r : Except Violation Unit}
    (hr : c.apply op = .ok (c', r)) : Grows T c c' := by
  rcases apply_cases hop hr with ⟨_, ⟨i, rfl⟩ | ⟨b, rfl⟩ | ⟨command, answer, _, hp⟩⟩ |
    ⟨i, hr⟩ | hr
  · exact (crash_unrouted c i).grows
  · exact Unrouted.grows ⟨rfl, rfl, rfl, rfl⟩
  · exact propose_grows hp
  · exact (restart_unrouted hr).grows
  · have hstart : Unrouted c
        ({ c with cfg := { c.cfg with faults := .none } } : Cluster χ).heal := ⟨rfl, rfl, rfl, rfl⟩
    exact (hstart.trans (restartAll_unrouted hr)).grows

/-- A step ends with a violation before the links are advanced, or it exchanges messages and
checks the invariants. -/
theorem step_cases {d : Draws} {r : Except Violation Unit} (hr : c.step d = .ok (c', r)) :
    (∃ v, c.injected d = .ok (c', .error v) ∧ c.advance d = .ok (c', .error v)) ∨
      ∃ c₁ c₂, c.injected d = .ok (c₁, .ok ()) ∧ c₁.exchange c.cfg.faults d = .ok c₂ ∧
        Alike c₂ c' := by
  obtain ⟨⟨c₂, r₂⟩, hadvance, hr⟩ := Checked.bind_eq_ok.mp hr
  have hparts := hadvance
  rw [advance_eq] at hparts
  obtain ⟨⟨c₁, r₁⟩, hinjected, hparts⟩ := Checked.bind_eq_ok.mp hparts
  cases r₁ with
  | error v =>
    cases hparts
    cases hr
    exact .inl ⟨v, hinjected, hadvance⟩
  | ok u =>
    obtain ⟨c₃, hexchange, hparts⟩ := Checked.bind_eq_ok.mp hparts
    cases hparts
    have hcheck := checkInvariants_alike c₂
    have hresult : c₂.checkInvariants = (c', r) := Except.ok.inj hr
    rw [hresult] at hcheck
    exact .inr ⟨c₁, c₂, hinjected, hexchange, hcheck⟩

/-- A restart that a step of a tracked cluster injects reports nothing. -/
theorem Tracked.advances {carried : χ → List UInt8 → Prop} (hχ : Channel.Faithful χ carried)
    {a : History} {s : System} (h : Tracked carried a s c) (op : Op) : c.Advances op := by
  cases op with
  | step d =>
    intro c' v hinjected
    have hadvance : c.advance d = .ok (c', .error v) := by
      rw [advance_eq, hinjected]
      rfl
    cases (advance_quiet hχ h hadvance).1
  | _ => trivial

/-- Such a step gets to its checks. -/
theorem step_exchanges {d : Draws} (h : c.Advances (.step d)) {r : Except Violation Unit}
    (hr : c.step d = .ok (c', r)) : ∃ c₁ c₂, c.injected d = .ok (c₁, .ok ()) ∧
      c₁.exchange c.cfg.faults d = .ok c₂ ∧ Alike c₂ c' := by
  rcases step_cases hr with ⟨v, hinjected, _⟩ | hexchanged
  · exact absurd hinjected (h c' v)
  · exact hexchanged

theorem Unrouted.synced (h : Unrouted c c') (hc : Synced T c) : Synced T c' := by
  intro i hi j hj hne
  rw [h.size] at hi hj
  rw [h.links, h.now]
  exact hc i hi j hj hne

/-- Every call leaves the links in step with the clock. -/
theorem InStep.kept (h : InStep T size c) (ha : c.Advances op) (hn : c.next op = some c') :
    InStep T size c' := by
  obtain ⟨r, hr⟩ := next_eq_some hn
  by_cases hstep : ∃ d, op = .step d
  · obtain ⟨d, rfl⟩ := hstep
    obtain ⟨c₁, c₂, hinjected, hexchange, halike⟩ := step_exchanges ha hr
    obtain ⟨_, hsize⟩ := injected_now_size T hinjected
    obtain ⟨_, hsize', hsynced, _⟩ := exchange_synced (T := T) hexchange
    refine ⟨?_, halike.unrouted.synced hsynced⟩
    rw [halike.cfg, hsize', hsize, h.size_eq]
  · have hgrows : Grows T c c' := apply_grows (not_exists.mp hstep) hr
    refine ⟨hgrows.size.trans h.size_eq, fun i hi j hj hne => ?_⟩
    rw [hgrows.size] at hi hj
    rw [hgrows.now]
    exact (hgrows.links i j (h.synced i hi j hj hne)).1

theorem Running.advances (hT : Channel.Faithful χ T.Carried) (h : Running T size c) (op : Op) :
    c.Advances op := by
  obtain ⟨a, s, ht⟩ := h.tracked
  exact ht.advances hT op

theorem Running.encodable (h : Running T size c) (i : Nat) (n : Node Disk)
    (hn : c.nodes i = some n) : n.Encodable := by
  obtain ⟨a, s, ht⟩ := h.tracked
  exact ht.mirrors.encodable hn

theorem Running.kept (hT : Channel.Faithful χ T.Carried) (h : Running T size c)
    (hsized : op.Sized) (hn : c.next op = some c') : Running T size c' := by
  obtain ⟨r, hr⟩ := next_eq_some hn
  obtain ⟨a, s, ht⟩ := h.tracked
  exact ⟨h.toInStep.kept (h.advances hT op) hn, (apply_tracked hT ht hsized hr).2⟩

/-- A harmless step stamps everything with its own tick. -/
theorem step_stampsNow (h : InStep T size c) {d : Draws} (hh : c.Harmless (.step d))
    (ha : c.Advances (.step d)) {r : Except Violation Unit} (hr : c.step d = .ok (c', r)) :
    StampsNow T size c c' := by
  obtain ⟨c₁, c₂, hinjected, hexchange, halike⟩ := step_exchanges ha hr
  obtain ⟨_, hsize⟩ := injected_now_size T hinjected
  have hsame := injected_sameLinks T hh hinjected
  obtain ⟨hnow, _, _, hnew⟩ := exchange_synced (T := T) hexchange
  have hclock : c'.now = c₁.now := halike.now.trans hnow
  intro i hi j hj hne
  rw [← h.size_eq] at hi hj
  obtain ⟨new, hsends, hstamp⟩ :=
    hnew i (by rw [hsize]; exact hi) j (by rw [hsize]; exact hj) hne
  rw [halike.links, hsends, hsame i hi j hj hne, hclock]
  exact ⟨new, rfl, hstamp⟩

/-- So does every harmless call. -/
theorem InStep.stampsNow (h : InStep T size c) (hh : c.Harmless op) (ha : c.Advances op)
    (hn : c.next op = some c') : StampsNow T size c c' := by
  obtain ⟨r, hr⟩ := next_eq_some hn
  by_cases hstep : ∃ d, op = .step d
  · obtain ⟨d, rfl⟩ := hstep
    exact step_stampsNow h hh ha hr
  · have hgrows : Grows T c c' := apply_grows (not_exists.mp hstep) hr
    intro i hi j hj hne
    rw [← h.size_eq] at hi hj
    rw [hgrows.now]
    exact (hgrows.links i j (h.synced i hi j hj hne)).2

/-- What a harmless step hands to a node was on the link before the step, and is due. -/
theorem InStep.handled_due (h : InStep T size c) {d : Draws} (hh : c.Harmless (.step d))
    {i j k : Nat} (hk : (i, j, k) ∈ c.handledIn T d) :
    i < size ∧ j < size ∧ i ≠ j ∧ ∃ stamp b, (T.sends (c.links i j))[k]? = some (stamp, b) ∧
      stamp + baseDelay ≤ c.now + 1 := by
  unfold handledIn at hk
  split at hk
  · next c₁ hinjected =>
    obtain ⟨hnow, hsize⟩ := injected_now_size T hinjected
    have hsame := injected_sameLinks T hh hinjected
    obtain ⟨datagram, hmem⟩ := mem_handles hk
    obtain ⟨hi, hj, hne, hhanded⟩ := mem_ticketed hmem
    rw [hsize] at hi hj
    rw [hnow, hsame i hi j hj hne] at hhanded
    rw [h.size_eq] at hi hj
    exact ⟨hi, hj, hne, T.handed_due _ _ _ hhanded⟩
  · cases hk

/-- Along harmless calls the links keep in step, and what was sent on them stays on record. -/
theorem InStep.after {ops : List Op} (h : InStep T size c) (hh : Throughout next Harmless c ops)
    (ha : Throughout next Advances c ops) (hrun : exec next c ops = some c') :
    InStep T size c' ∧
      ∀ i < size, ∀ j < size, i ≠ j → T.sends (c.links i j) <+: T.sends (c'.links i j) := by
  induction ops generalizing c with
  | nil =>
    cases hrun
    exact ⟨h, fun i _ j _ _ => List.prefix_rfl⟩
  | cons op ops ih =>
    obtain ⟨hop, hrest⟩ := throughout_cons.mp hh
    obtain ⟨hadvances, harest⟩ := throughout_cons.mp ha
    obtain ⟨c₁, hnext, hrun⟩ := exec_cons_eq_some.mp hrun
    obtain ⟨h', hprefix⟩ := ih (h.kept hadvances hnext) (hrest c₁ hnext) (harest c₁ hnext) hrun
    refine ⟨h', fun i hi j hj hne => ?_⟩
    obtain ⟨new, hnew, _⟩ := h.stampsNow hop hadvances hnext i hi j hj hne
    have hlast := hprefix i hi j hj hne
    rw [hnew] at hlast
    exact (List.prefix_append _ new).trans hlast

theorem new_inStep {cfg : ClusterConfig} (h : Cluster.new cfg = .ok c) : InStep T cfg.n c := by
  have hboot := bootAll_unrouted h
  refine ⟨hboot.size, fun i hi j hj hne => ?_⟩
  rw [hboot.links, hboot.now]
  exact T.clock_new _

theorem new_running (hT : Channel.Faithful χ T.Carried) {cfg : ClusterConfig}
    (h : Cluster.new cfg = .ok c) : Running T cfg.n c := by
  obtain ⟨a, s, ht, _⟩ := new_watched hT h
  exact ⟨new_inStep h, a, s, ht⟩

/-- Over faithful links and with short commands, no restart reports a violation. -/
theorem advances_throughout (hT : Channel.Faithful χ T.Carried) {cfg : ClusterConfig}
    {c₀ : Cluster χ} (hnew : Cluster.new cfg = .ok c₀) {ops : List Op}
    (hsized : ∀ op ∈ ops, op.Sized) : Throughout next Advances c₀ ops := by
  intro ys op hpre c hc
  have hrun : Running T cfg.n c := by
    refine exec_induction (P := Running T cfg.n) (new_running hT hnew) ?_ hc
    intro c₁ c₂ op' hop' h₁ hnext
    exact h₁.kept hT (hsized op' (hpre.subset (List.mem_append_left _ hop'))) hnext
  exact hrun.advances hT op

theorem Cluster.NoEarlyDelivery.of_harmless (T : Channel.Timing χ baseDelay) {cfg : ClusterConfig}
    {c₀ : Cluster χ} (hnew : Cluster.new cfg = .ok c₀) {ops : List Op}
    (hh : Throughout next Harmless c₀ ops) (ha : Throughout next Advances c₀ ops) :
    NoEarlyDelivery T c₀ ops := by
  have hstart : InStep T cfg.n c₀ := new_inStep hnew
  have hmoment : ∀ ys zs c, ys ++ zs <+: ops → exec next c₀ ys = some c →
      InStep T cfg.n c ∧ Throughout next Harmless c zs ∧ Throughout next Advances c zs := by
    intro ys zs c hy hc
    have hall := hh.of_isPrefix hy
    have hall' := ha.of_isPrefix hy
    have hpre := List.prefix_append ys zs
    exact ⟨(hstart.after (hall.of_isPrefix hpre) (hall'.of_isPrefix hpre) hc).1,
      hall.of_append hc, hall'.of_append hc⟩
  rintro i j k t t' ⟨xs, op, c, c', hpre, hc, hnext, hge, hlt, rfl⟩
    ⟨xs', d, p, hpre', hp, hmem, rfl⟩
  obtain ⟨hinstep, hstep, _⟩ := hmoment xs' [.step d] p hpre' hp
  obtain ⟨hi, hj, hne, stamp, b, hk, hdue⟩ :=
    hinstep.handled_due (throughout_cons.mp hstep).1 hmem
  rcases Nat.lt_or_ge xs.length xs'.length with hlen | hlen
  · -- routed before it is handled: the stamp is the tick of the routing call
    obtain ⟨zs, rfl⟩ : xs ++ [op] <+: xs' := List.prefix_of_prefix_length_le hpre
      ((List.prefix_append xs' _).trans hpre') (by rw [List.length_append]; exact hlen)
    obtain ⟨c₁, hc₁, hrest⟩ := exec_append_eq_some.mp hp
    obtain ⟨c₂, hc₂, hlast⟩ := exec_append_eq_some.mp hc₁
    rw [hc] at hc₂
    cases hc₂
    rw [exec_singleton, hnext] at hlast
    cases hlast
    obtain ⟨hbefore, hop, hadvances⟩ := hmoment xs [op] c hpre hc
    have hstamps :=
      hbefore.stampsNow (throughout_cons.mp hop).1 (throughout_cons.mp hadvances).1 hnext
    obtain ⟨hafter, hrest₁, hrest₂⟩ := hmoment (xs ++ [op]) zs c'
      ((List.prefix_append _ _).trans hpre') hc₁
    obtain ⟨tail, htail⟩ := (hafter.after hrest₁ hrest₂ hrest).2 i hi j hj hne
    obtain ⟨new, hnew, hstamp⟩ := hstamps i hi j hj hne
    rw [← htail, List.getElem?_append_left hlt, hnew, List.getElem?_append_right hge] at hk
    have hnow : stamp = c'.now := hstamp _ (List.mem_of_getElem? hk)
    omega
  · -- handled before it is routed: its number is not given out yet
    obtain ⟨zs, rfl⟩ : xs' <+: xs := List.prefix_of_prefix_length_le
      ((List.prefix_append xs' _).trans hpre') ((List.prefix_append xs _).trans hpre) hlen
    obtain ⟨p', hp', hrest⟩ := exec_append_eq_some.mp hc
    rw [hp] at hp'
    cases hp'
    obtain ⟨_, hrest₁, hrest₂⟩ := hmoment xs' zs p ((List.prefix_append _ _).trans hpre) hp
    have hprefix := (hinstep.after hrest₁ hrest₂ hrest).2 i hi j hj hne
    have hbound := (List.getElem?_eq_some_iff.mp hk).1
    have hle := hprefix.length_le
    omega

/-- In a run none of whose steps injects a proposal that reaches an open link, or a restart that
reports a violation, a datagram routed at tick `t` is handed to a node at tick `t + baseDelay` at
the earliest. Over links that hand out what was sent, or damage the frames detect, and with
commands of fewer than `2 ^ 32` bytes, no restart reports a violation. -/
theorem no_early_delivery (T : Channel.Timing χ baseDelay) {cfg : ClusterConfig}
    {c₀ : Cluster χ} (hnew : Cluster.new cfg = .ok c₀) {ops : List Op}
    (hh : Throughout next Harmless c₀ ops) :
    (Throughout next Advances c₀ ops → NoEarlyDelivery T c₀ ops) ∧
      ((Channel.frames χ).Faithful → T.Intact → (∀ op ∈ ops, op.Sized) →
        NoEarlyDelivery T c₀ ops) := by
  refine ⟨fun ha => .of_harmless T hnew hh ha, fun hframe hintact hsized => ?_⟩
  have ha := advances_throughout (T.faithful hframe hintact) hnew hsized
  exact .of_harmless T hnew hh ha

/-! ## A proposal that overtakes the clock -/

/-- A link that hands out every datagram once, intact, at the first advance that reaches one
tick after its stamp. -/
structure OneTick where
  clock : Nat
  sends : List (Nat × List UInt8)

namespace OneTick

/-- The numbers of the datagrams that an advance to `t` hands out. -/
def due (c : OneTick) (t : Nat) : List Nat :=
  (List.range c.sends.length).filter fun k =>
    (c.sends[k]?).any fun p => decide (c.clock < p.1 + 1 ∧ p.1 + 1 ≤ t)

instance : Channel OneTick where
  Error := String
  codec := plainFrames
  new _ := ⟨0, []⟩
  send c b := { c with sends := c.sends ++ [(c.clock, b)] }
  advance c t :=
    ({ c with clock := t }, (c.due t).map fun k => ((c.sends[k]?).map Prod.snd).getD [])

theorem due_sent {c : OneTick} {t k : Nat} (hk : k ∈ c.due t) :
    ∃ stamp b, c.sends[k]? = some (stamp, b) ∧ stamp + 1 ≤ t := by
  obtain ⟨_, hany⟩ := List.mem_filter.mp hk
  obtain ⟨p, hp, hdue⟩ := (Option.any_eq_true _ _).mp hany
  exact ⟨p.1, p.2, hp, (of_decide_eq_true hdue).2⟩

def timing : Channel.Timing OneTick 1 where
  clock := OneTick.clock
  sends := OneTick.sends
  handed := due
  clock_new _ := rfl
  clock_send _ _ := rfl
  clock_advance _ _ := rfl
  sends_new _ := rfl
  sends_send _ _ := rfl
  sends_advance _ _ := rfl
  handed_length _ _ := (List.length_map _).symm
  handed_due _ _ _ hk := due_sent hk

theorem timing_exact (c : OneTick) (t : Nat) :
    List.Forall₂ (fun b k => b ∈ ((timing.sends c)[k]?).map Prod.snd) (Channel.advance c t).2
      (timing.handed c t) := by
  apply List.forall₂_map_left_iff.mpr
  apply List.forall₂_same.mpr
  intro k hk
  obtain ⟨stamp, b, hp, _⟩ := due_sent hk
  have hsent : (timing.sends c)[k]? = some (stamp, b) := hp
  simp [hsent, hp]

theorem timing_intact : timing.Intact := fun c t => (timing_exact c t).imp fun _ _ => .inl

end OneTick

namespace Cluster

/-- Three nodes over links of one tick, and a client that may propose within a step. -/
def busy : ClusterConfig := ⟨3, 0, { Faults.none with propose := true }, (5, 15), 2⟩

def fresh : Cluster OneTick := (Cluster.new busy).toOption.get (by decide +kernel)

theorem new_busy : Cluster.new busy = .ok fresh := Checked.eq_ok_get _

def proposing : Draws := { still with propose := true }

/-- Node 0 has just won term 1. -/
def elected : Cluster OneTick := (exec next fresh (steps 8)).get (by decide +kernel)

def rushed : Cluster OneTick := (elected.next (.step proposing)).get (by decide +kernel)

end Cluster

/-- The injected proposal of step 9 reaches node 1 within that step. -/
theorem proposal_handled_at_once :
    RoutedAt OneTick.timing fresh (steps 8 ++ [.step proposing]) 0 1 2 9 ∧
      HandledAt OneTick.timing fresh (steps 8 ++ [.step proposing]) 0 1 2 9 ∧
      ¬ NoEarlyDelivery OneTick.timing fresh (steps 8 ++ [.step proposing]) := by
  have helected : exec next fresh (steps 8) = some elected := (Option.some_get _).symm
  have hrouted : RoutedAt OneTick.timing fresh (steps 8 ++ [.step proposing]) 0 1 2 9 :=
    ⟨steps 8, _, elected, rushed, List.prefix_rfl, helected, (Option.some_get _).symm,
      by decide +kernel, by decide +kernel, by decide +kernel⟩
  have hhandled : HandledAt OneTick.timing fresh (steps 8 ++ [.step proposing]) 0 1 2 9 :=
    ⟨steps 8, proposing, elected, List.prefix_rfl, helected, by decide +kernel,
      by decide +kernel⟩
  refine ⟨hrouted, hhandled, fun hall => ?_⟩
  have hdue : 9 + 1 ≤ 9 := hall 0 1 2 9 9 hrouted hhandled
  omega

instance (c : Cluster χ) (op : Op) : Decidable (c.Harmless op) :=
  match op with
  | .step d =>
    match h : ({ c with now := c.now + 1 } : Cluster χ).injectCrashes c.cfg.faults d with
    | .error _ => .isTrue (by simp [Harmless, h])
    | .ok (c₁, _) =>
      match hl : (c₁.network c.cfg.faults d).leader with
      | none => .isTrue (by simp [Harmless, h, hl])
      | some l => decidable_of_iff ((c.cfg.faults.propose && d.propose) = true →
          ∀ p < c.cfg.n, p ≠ l → (c₁.network c.cfg.faults d).blocked l p = true)
          (by simp [Harmless, h, hl])
  | .crash _ | .restart _ | .partition _ | .isolate _ | .heal | .propose _ | .quiesce =>
    .isTrue trivial

namespace Cluster

/-- The elected leader gets a command from outside, and one within a step in which its links are
cut. -/
def hushed : List Op :=
  steps 8 ++ [.propose [7]] ++ steps 2 ++ [.isolate 0, .step proposing, .heal] ++ steps 6

def asked : Cluster OneTick := (elected.next (.propose [7])).get (by decide +kernel)

end Cluster

/-- The command from outside reaches node 1 one tick later. -/
theorem no_early_delivery_busy :
    RoutedAt OneTick.timing fresh hushed 0 1 2 8 ∧ HandledAt OneTick.timing fresh hushed 0 1 2 9 ∧
      NoEarlyDelivery OneTick.timing fresh hushed := by
  have helected : exec next fresh (steps 8) = some elected := (Option.some_get _).symm
  have hasked : elected.next (.propose [7]) = some asked := (Option.some_get _).symm
  have hfirst : steps 8 ++ [.propose [7]] <+: hushed :=
    ⟨steps 2 ++ [.isolate 0, .step proposing, .heal] ++ steps 6, by simp [hushed]⟩
  have hthen : steps 8 ++ [.propose [7]] ++ [.step still] <+: hushed :=
    ⟨steps 1 ++ [.isolate 0, .step proposing, .heal] ++ steps 6, by simp [hushed, steps]⟩
  have hboth : exec next fresh (steps 8 ++ [.propose [7]]) = some asked :=
    exec_append_eq_some.mpr ⟨elected, helected, by rw [exec_singleton, hasked]⟩
  refine ⟨⟨steps 8, _, elected, asked, hfirst, helected, hasked, by decide +kernel,
      by decide +kernel, by decide +kernel⟩,
    ⟨_, still, asked, hthen, hboth, by decide +kernel, by decide +kernel⟩, ?_⟩
  have hharmless : Throughout next Harmless fresh hushed := by decide +kernel
  exact (no_early_delivery OneTick.timing new_busy hharmless).2 plainFrames_faithful
    OneTick.timing_intact (by decide)

end Landsraad
