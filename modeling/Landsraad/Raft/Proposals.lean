import Landsraad.Raft.Safety

/-!
# Where log entries come from

Every entry of a log is the no-op of a recorded election or the command of a recorded accepted
proposal, at the recorded index. The ledger's reigns carry the argument: a reign grows only by
the calls that are recorded.
-/

namespace Landsraad

open ReplicatedLog ReplicatedLog.Ledger

/-- The election and the accepted proposals of a reign are on record, entry by entry. -/
structure ReignRecorded (s : System) (t : Nat) (r : Reign Nat Entry) : Prop where
  noop : r.ledger[r.base]? = some ⟨t, []⟩
  elected : ⟨r.leader, t, r.base + 1⟩ ∈ s.elected
  accepted : ∀ k e, r.base < k → r.ledger[k]? = some e →
    ⟨r.leader, t, k + 1, e.command⟩ ∈ s.accepted

/-- The record of elections and accepted proposals matches the reigns of the ledger. -/
structure Recorded (a : History) (s : System) : Prop where
  reign : ∀ {t r}, a.reign t = some r → ReignRecorded s t r
  elected : ∀ w ∈ s.elected, ∃ r, a.reign w.term = some r ∧ r.leader = w.node ∧
    r.base + 1 = w.index
  accepted : ∀ x ∈ s.accepted, ∃ r k, a.reign x.term = some r ∧ r.leader = x.node ∧
    r.base < k ∧ k + 1 = x.index ∧ r.ledger[k]? = some ⟨x.term, x.command⟩
  elected_nodup : (s.elected.map Election.term).Nodup
  accepted_nodup : (s.accepted.map fun x => (x.term, x.index)).Nodup

section

variable {size : Nat} {a a' : History} {s s' : System}

theorem ReignRecorded.mono {t : Nat} {r : Reign Nat Entry} (h : ReignRecorded s t r)
    (hel : s.elected ⊆ s'.elected) (hacc : s.accepted ⊆ s'.accepted) : ReignRecorded s' t r :=
  ⟨h.noop, hel h.elected, fun k e hk he => hacc (h.accepted k e hk he)⟩

theorem Recorded.initial : Recorded Ledger.initial System.initial where
  reign h := by cases h
  elected w hw := by cases hw
  accepted x hx := by cases hx
  elected_nodup := .nil
  accepted_nodup := .nil

private theorem elected_mono (h : Recorded a s) (hext : Extends a a') :
    ∀ w ∈ s.elected, ∃ r, a'.reign w.term = some r ∧ r.leader = w.node ∧ r.base + 1 = w.index := by
  intro w hw
  obtain ⟨r, hr, hlead, hbase⟩ := h.elected w hw
  obtain ⟨r', hr', hlead', hbase', _⟩ := hext.reign hr
  exact ⟨r', hr', hlead'.trans hlead, by rw [hbase', hbase]⟩

private theorem accepted_mono (h : Recorded a s) (hext : Extends a a') :
    ∀ x ∈ s.accepted, ∃ r k, a'.reign x.term = some r ∧ r.leader = x.node ∧ r.base < k ∧
      k + 1 = x.index ∧ r.ledger[k]? = some ⟨x.term, x.command⟩ := by
  intro x hx
  obtain ⟨r, k, hr, hlead, hbase, hidx, hk⟩ := h.accepted x hx
  obtain ⟨r', hr', hlead', hbase', hp⟩ := hext.reign hr
  refine ⟨r', k, hr', hlead'.trans hlead, by rw [hbase']; exact hbase, hidx, ?_⟩
  have hlt := (List.getElem?_eq_some_iff.mp hk).1
  rw [← (AgreeUpTo.of_isPrefix hp le_rfl).getElem?_eq hlt, hk]

private theorem reign_update {t : Nat} {r' : Reign Nat Entry}
    (h : Recorded a s) (hr' : a'.reign = Function.update a.reign t (some r'))
    (hel : s.elected ⊆ s'.elected) (hacc : s.accepted ⊆ s'.accepted)
    (hnew : ReignRecorded s' t r') {u : Nat} {r : Reign Nat Entry} (hu : a'.reign u = some r) :
    ReignRecorded s' u r := by
  rw [hr'] at hu
  by_cases hut : u = t
  · subst hut
    rw [Function.update_self] at hu
    cases hu
    exact hnew
  · rw [Function.update_of_ne hut] at hu
    exact (h.reign hu).mono hel hacc

/-- A won election opens a reign of a term that has none, with its no-op. -/
private theorem recorded_election (h : Recorded a s) (hext : Extends a a') {i t : Nat}
    {l : List Entry} (hvacant : a.reign t = none)
    (hr : a'.reign = Function.update a.reign t (some ⟨i, l.length, l ++ [⟨t, []⟩]⟩))
    (hacc : s'.accepted = s.accepted)
    (hel : s'.elected = s.elected ++ [⟨i, t, l.length + 1⟩]) : Recorded a' s' := by
  have hnew : ReignRecorded s' t ⟨i, l.length, l ++ [⟨t, []⟩]⟩ := by
    refine ⟨by simp, by simp [hel], fun k e hk he => ?_⟩
    have hlt := (List.getElem?_eq_some_iff.mp he).1
    simp only [List.length_append, List.length_singleton] at hk hlt
    omega
  refine ⟨reign_update h hr (hel ▸ List.subset_append_left _ _) (hacc ▸ List.Subset.refl _) hnew,
    ?_, by rw [hacc]; exact accepted_mono h hext, ?_, by rw [hacc]; exact h.accepted_nodup⟩
  · intro w hw
    rw [hel] at hw
    rcases List.mem_append.mp hw with hw | hw
    · exact elected_mono h hext w hw
    · cases List.mem_singleton.mp hw
      exact ⟨_, by rw [hr, Function.update_self], rfl, rfl⟩
  · rw [hel, List.map_append, List.nodup_append]
    refine ⟨h.elected_nodup, by simp, ?_⟩
    rintro u hu u' hu' rfl
    obtain ⟨w, hw, rfl⟩ := List.mem_map.mp hu
    obtain ⟨r, hwr, _⟩ := h.elected w hw
    obtain rfl : w.term = t := by simpa using hu'
    rw [hvacant] at hwr
    cases hwr

/-- An accepted proposal is the next entry of the reign of its term. -/
private theorem recorded_acceptance (h : Recorded a s) (hext : Extends a a')
    (hinv : Inv (quorums size) a) {t : Nat} {r : Reign Nat Entry} {command : List UInt8}
    (hr : a.reign t = some r)
    (hr' : a'.reign =
      Function.update a.reign t (some { r with ledger := r.ledger ++ [⟨t, command⟩] }))
    (hacc : s'.accepted = s.accepted ++ [⟨r.leader, t, r.ledger.length + 1, command⟩])
    (hel : s'.elected = s.elected) : Recorded a' s' := by
  have hbase := (hinv.reign_bid hr).2
  have hsub : s.accepted ⊆ s'.accepted := hacc ▸ List.subset_append_left _ _
  have hnew : ReignRecorded s' t { r with ledger := r.ledger ++ [⟨t, command⟩] } := by
    refine ⟨?_, by rw [hel]; exact (h.reign hr).elected, fun k e hk he => ?_⟩
    · rw [List.getElem?_append_left hbase]
      exact (h.reign hr).noop
    · rcases Nat.lt_or_ge k r.ledger.length with hlt | hge
      · rw [List.getElem?_append_left hlt] at he
        exact hsub ((h.reign hr).accepted k e hk he)
      · have hlt := (List.getElem?_eq_some_iff.mp he).1
        rw [List.length_append, List.length_singleton] at hlt
        obtain rfl : k = r.ledger.length := by omega
        simp only [List.getElem?_concat_length, Option.some.injEq] at he
        subst he
        simp [hacc]
  refine ⟨reign_update h hr' (hel ▸ List.Subset.refl _) hsub hnew,
    by rw [hel]; exact elected_mono h hext, ?_, by rw [hel]; exact h.elected_nodup, ?_⟩
  · intro x hx
    rw [hacc] at hx
    rcases List.mem_append.mp hx with hx | hx
    · exact accepted_mono h hext x hx
    · cases List.mem_singleton.mp hx
      exact ⟨{ r with ledger := r.ledger ++ [⟨t, command⟩] }, r.ledger.length,
        by rw [hr', Function.update_self], rfl, hbase, rfl, by simp⟩
  · rw [hacc, List.map_append, List.nodup_append]
    refine ⟨h.accepted_nodup, by simp, ?_⟩
    rintro p hp p' hp' rfl
    obtain ⟨x, hx, rfl⟩ := List.mem_map.mp hp
    obtain ⟨r₁, k, hxr, _, _, hidx, hk⟩ := h.accepted x hx
    obtain ⟨hxt, hxi⟩ : x.term = t ∧ x.index = r.ledger.length + 1 := by simpa using hp'
    rw [hxt, hr] at hxr
    cases hxr
    have hlt := (List.getElem?_eq_some_iff.mp hk).1
    omega

theorem Recorded.observed (h : Recorded a s) (hinv : Inv (quorums size) a) (hext : Extends a a')
    (ho : Observed a a' s s') : Recorded a' s' := by
  cases ho with
  | nothing reign accepted elected =>
    refine ⟨?_, by rw [elected]; exact elected_mono h hext,
      by rw [accepted]; exact accepted_mono h hext, by rw [elected]; exact h.elected_nodup,
      by rw [accepted]; exact h.accepted_nodup⟩
    intro t r hr
    rw [reign] at hr
    exact (h.reign hr).mono (elected ▸ List.Subset.refl _) (accepted ▸ List.Subset.refl _)
  | election i t l vacant reign accepted elected =>
    exact recorded_election h hext vacant reign accepted elected
  | acceptance t r command reigning reign accepted elected =>
    exact recorded_acceptance h hext hinv reigning reign accepted elected

theorem Observed.accepted_subset (h : Observed a a' s s') : s.accepted ⊆ s'.accepted := by
  cases h with
  | nothing _ accepted _ => exact accepted ▸ List.Subset.refl _
  | election _ _ _ _ _ accepted _ => exact accepted ▸ List.Subset.refl _
  | acceptance _ _ _ _ _ accepted _ => exact accepted ▸ List.subset_append_left _ _

/-- In a run that crashes no node inside a handler, every state is recorded. -/
theorem run_recorded_steps {acts : List Action} (hwhole : ∀ act ∈ acts, act.Whole)
    (hsim : SystemSim size a s) (hrec : Recorded a s) (hr : s.run size acts = some s') :
    ∃ a', SystemSim size a' s' ∧ Recorded a' s' ∧ s.accepted ⊆ s'.accepted ∧
      Steps (quorums size) a a' := by
  refine Run.exec_induction (P := fun s' => ∃ a', SystemSim size a' s' ∧ Recorded a' s' ∧
    s.accepted ⊆ s'.accepted ∧ Steps (quorums size) a a')
    ⟨a, hsim, hrec, List.Subset.refl _, .refl⟩ ?_ hr
  rintro s₁ s₂ act hact ⟨a₁, hsim₁, hrec₁, hsub, hsteps⟩ hp
  obtain ⟨a₂, hp⟩ := perform_simulates hsim₁ hp
  have ho := hp.observed (hwhole act hact)
  exact ⟨a₂, hp.sim, hrec₁.observed hsim₁.inv (hp.steps.extends hsim₁.inv) ho,
    List.Subset.trans hsub ho.accepted_subset, hsteps.trans hp.steps⟩

theorem run_recorded {acts : List Action} (hwhole : ∀ act ∈ acts, act.Whole)
    (hsim : SystemSim size a s) (hrec : Recorded a s) (hr : s.run size acts = some s') :
    ∃ a', SystemSim size a' s' ∧ Recorded a' s' ∧ s.accepted ⊆ s'.accepted := by
  obtain ⟨a', hsim', hrec', hsub, _⟩ := run_recorded_steps hwhole hsim hrec hr
  exact ⟨a', hsim', hrec', hsub⟩

/-- An entry of a sourced log stands at its position in the reign of its term, above the log that
reign was won with. -/
theorem Sourced.origin (hinv : Inv (quorums size) a) {l : List Entry} (hl : a.Sourced l) {k : Nat}
    {e : Entry} (he : l[k]? = some e) :
    ∃ r, a.reign e.term = some r ∧ r.base ≤ k ∧ r.ledger[k]? = some e := by
  obtain ⟨r, hr, hag⟩ := hl k e he
  rw [hag.getElem?_eq (Nat.lt_succ_self k)] at he
  refine ⟨r, hr, ?_, he⟩
  by_contra hlt
  have hmem : e ∈ r.ledger.take r.base :=
    List.mem_of_getElem? (i := k) (by rw [List.getElem?_take_of_lt (by omega), he])
  exact absurd (hinv.bid_stamp (hinv.reign_bid hr).1 e hmem) (lt_irrefl _)

theorem SystemSim.origin (h : SystemSim size a s) {l : List Entry} (hl : s.HasLog l) {k : Nat}
    {e : Entry} (he : l[k]? = some e) :
    ∃ r, a.reign e.term = some r ∧ r.base ≤ k ∧ r.ledger[k]? = some e :=
  Sourced.origin h.inv (h.sourced hl) he

end

/-- The entry at index `k` of a log is the no-op of the leader of its term, or the command of
an accepted proposal of its term that was answered with `k`; it is never both. -/
def System.Accounted (s : System) (k : Nat) (e : Entry) : Prop :=
  (∃ w ∈ s.elected, w.term = e.term ∧ w.index = k ∧ e.command = [] ∧
      ∀ x ∈ s.accepted, x.term = e.term → x.index ≠ k) ∨
    ∃ x ∈ s.accepted, x.term = e.term ∧ x.index = k ∧ x.command = e.command ∧
      ∃ w ∈ s.elected, w.term = x.term ∧ w.node = x.node ∧ w.index < k

section

variable {size : Nat} {a : History} {s : System}

/-- An entry that a reign has added is accounted for. -/
theorem Recorded.accounted_of_reign (h : Recorded a s) {e : Entry} {r : Reign Nat Entry}
    (hr : a.reign e.term = some r) {k : Nat} (hbase : r.base ≤ k) (hk : r.ledger[k]? = some e) :
    s.Accounted (k + 1) e := by
  rcases Nat.eq_or_lt_of_le hbase with rfl | hlt
  · have hnoop := (h.reign hr).noop.symm.trans hk
    refine .inl ⟨_, (h.reign hr).elected, rfl, rfl, ?_, ?_⟩
    · rw [← Option.some.inj hnoop]
    · intro x hx hxt hxi
      obtain ⟨r', k', hr', _, hb', hidx, _⟩ := h.accepted x hx
      rw [hxt, hr] at hr'
      cases hr'
      omega
  · exact .inr ⟨_, (h.reign hr).accepted k e hlt hk, rfl, rfl, rfl, _,
      (h.reign hr).elected, rfl, rfl, by
      simp only
      omega⟩

theorem Recorded.accounted (h : Recorded a s) (hsim : SystemSim size a s) {l : List Entry}
    (hl : s.HasLog l) {k : Nat} {e : Entry} (he : l[k]? = some e) : s.Accounted (k + 1) e := by
  obtain ⟨r, hr, hbase, hk⟩ := hsim.origin hl he
  exact h.accounted_of_reign hr hbase hk

theorem Recorded.command_eq (h : Recorded a s) (hsim : SystemSim size a s) {x : Acceptance}
    (hx : x ∈ s.accepted) {l : List Entry} (hl : s.HasLog l) {e : Entry}
    (he : l[x.index - 1]? = some e) (ht : e.term = x.term) : e.command = x.command := by
  obtain ⟨r, k, hr, _, _, hidx, hcmd⟩ := h.accepted x hx
  obtain ⟨r', hr', _, hk⟩ := hsim.origin hl he
  rw [ht, hr] at hr'
  cases hr'
  obtain rfl : k = x.index - 1 := by omega
  rw [hcmd] at hk
  cases hk
  rfl

/-- A proposal whose command nobody else had accepted stands at its own index only. -/
theorem Recorded.index_eq (h : Recorded a s) (hsim : SystemSim size a s) {x : Acceptance}
    (hne : x.command ≠ []) (honly : ∀ y ∈ s.accepted, y.command = x.command → y = x)
    {l : List Entry} (hl : s.HasLog l) {k : Nat} {e : Entry} (he : l[k]? = some e)
    (hcmd : e.command = x.command) : k + 1 = x.index ∧ e.term = x.term := by
  rcases h.accounted hsim hl he with ⟨_, _, _, _, hempty, _⟩ | ⟨y, hy, hyt, hyi, hyc, _⟩
  · exact absurd (hcmd.symm.trans hempty) hne
  · obtain rfl := honly y hy (hyc.trans hcmd)
    exact ⟨hyi.symm, hyt.symm⟩

end

/-- A proposal accepted at an index is what every later log of its term holds at that index;
every entry is accounted for by one election or one accepted proposal of its term; and a
command accepted once stands at no other index than the one returned. -/
theorem proposal_integrity {size : Nat} {acts acts' : List Action} {s s' : System}
    (h : System.initial.run size acts = some s) (h' : s.run size acts' = some s')
    (hwhole : ∀ act ∈ acts ++ acts', act.Whole) :
    (∀ x ∈ s.accepted, ∀ l, s'.HasLog l → ∀ e, l[x.index - 1]? = some e → e.term = x.term →
      e.command = x.command) ∧
    (∀ l, s'.HasLog l → ∀ k e, l[k]? = some e → s'.Accounted (k + 1) e) ∧
    (s'.elected.map Election.term).Nodup ∧
    (s'.accepted.map fun x => (x.term, x.index)).Nodup ∧
    (∀ x ∈ s'.accepted, x.command ≠ [] → (∀ y ∈ s'.accepted, y.command = x.command → y = x) →
      ∀ l, s'.HasLog l → ∀ k e, l[k]? = some e → e.command = x.command →
        k + 1 = x.index ∧ e.term = x.term) := by
  obtain ⟨a, hsim, hrec, _⟩ := run_recorded (fun act ha => hwhole act (List.mem_append_left _ ha))
    (.initial size) .initial h
  obtain ⟨a', hsim', hrec', hsub⟩ := run_recorded
    (fun act ha => hwhole act (List.mem_append_right _ ha)) hsim hrec h'
  exact ⟨fun x hx l hl e he ht => hrec'.command_eq hsim' (hsub hx) hl he ht,
    fun l hl k e he => hrec'.accounted hsim' hl he, hrec'.elected_nodup, hrec'.accepted_nodup,
    fun x _ hne honly l hl k e he hcmd => hrec'.index_eq hsim' hne honly hl he hcmd⟩

theorem proposal_integrity_succession :
    (System.secondLeader.log.getD 1 ⟨0, []⟩).command = [7] ∧
      System.succeeded.Accounted 3 ⟨2, []⟩ ∧ System.succeeded.Accounted 2 ⟨1, [7]⟩ := by
  have hwhole : ∀ act ∈ (System.opening ++ System.reigning) ++ System.succession, act.Whole := by
    simp [System.opening, System.reigning, System.succession, Action.Whole]
  have h := proposal_integrity System.run_reigned System.run_succession hwhole
  have hlog : System.succeeded.HasLog System.secondLeader.log :=
    .inl ⟨1, _, System.node_secondLeader, rfl⟩
  refine ⟨?_, ?_, ?_⟩
  · exact h.1 ⟨0, 1, 2, [7]⟩ (by decide +kernel) _ hlog _ (by decide +kernel) (by decide +kernel)
  · exact h.2.1 _ hlog 2 ⟨2, []⟩ (by decide +kernel)
  · exact h.2.1 _ hlog 1 ⟨1, [7]⟩ (by decide +kernel)

end Landsraad
