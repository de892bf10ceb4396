import Landsraad.Sim.CheckerSpec

/-!
# When the simulator reports a violation

In a run of the simulator the only possible violation is one of leader completeness, and it is
reported exactly for a live leader that lacks an entry which a node of a later term has been
seen to commit: such an entry may have been created in a term before the leader's and yet have
been committed only after it.
-/

namespace Landsraad

open ReplicatedLog ReplicatedLog.Ledger Cluster Run

namespace Cluster

variable {χ : Type} [Channel χ]

/-- The cluster after a call that does not panic. -/
def next (c : Cluster χ) (op : Op) : Option (Cluster χ) :=
  match c.apply op with
  | .ok (c', _) => some c'
  | .error _ => none

/-- The violation that a call reports. -/
def reported (c : Cluster χ) (op : Op) : Option Violation :=
  match c.apply op with
  | .ok (_, .error v) => some v
  | _ => none

def Quiet (c : Cluster χ) (op : Op) : Prop := c.reported op = none

/-- The cluster at the moment a call checks the invariants, if it does. -/
def checked (c : Cluster χ) : Op → List (Cluster χ)
  | .step d =>
    match c.advance d with
    | .ok (c₁, .ok ()) => [c₁]
    | _ => []
  | _ => []

/-- The clusters that are checked in a run, in order. -/
def trace : Cluster χ → List Op → List (Cluster χ)
  | _, [] => []
  | c, op :: ops =>
    c.checked op ++ match c.next op with
      | some c' => trace c' ops
      | none => []

omit [Channel χ] in
/-- A live leader in `c` lacks an entry, created in a term before its own, that a node of a
later term has committed in `p`. -/
def Overtakes (p c : Cluster χ) : Prop :=
  ∃ i n j m k e, c.nodes i = some n ∧ n.role = .leader ∧ p.nodes j = some m ∧ n.term < m.term ∧
    k < m.commitIndex ∧ m.log[k]? = some e ∧ e.term < n.term ∧ n.log[k]? ≠ some e

omit [Channel χ] in
/-- Some leader is overtaken by what was seen at the same or an earlier check. -/
def StaleLeader (seen : List (Cluster χ)) : Prop :=
  ∃ before c after, seen = before ++ c :: after ∧ ∃ p ∈ before ++ [c], Overtakes p c

end Cluster

variable {χ : Type} {carried : χ → List UInt8 → Prop} {a : History} {s : System}
  {c c' c'' : Cluster χ} {seen : List (Cluster χ)} {i : Nat}

theorem Cluster.StaleLeader.append (h : StaleLeader seen) (rest : List (Cluster χ)) :
    StaleLeader (seen ++ rest) := by
  obtain ⟨before, c, after, rfl, hp⟩ := h
  exact ⟨before, c, after ++ rest, by simp, hp⟩

theorem staleLeader_concat :
    StaleLeader (seen ++ [c]) ↔ StaleLeader seen ∨ ∃ p ∈ seen ++ [c], Overtakes p c := by
  constructor
  · rintro ⟨before, x, after, he, hp⟩
    rcases List.eq_nil_or_concat after with rfl | ⟨rest, y, rfl⟩
    · obtain ⟨rfl, hx⟩ := List.append_inj' he rfl
      cases hx
      exact .inr hp
    · have he' : seen ++ [c] = (before ++ x :: rest) ++ [y] := by simpa using he
      obtain ⟨rfl, _⟩ := List.append_inj' he' rfl
      exact .inl ⟨before, x, rest, rfl, hp⟩
  · rintro (h | hp)
    · exact h.append [c]
    · exact ⟨seen, c, [], rfl, hp⟩

/-! ## The cluster and its history -/

variable [Channel χ]

/-- The cluster mirrors a system related to the history, and its books are right. -/
structure Tracked (carried : χ → List UInt8 → Prop) (a : History) (s : System) (c : Cluster χ) :
    Prop where
  system : SystemSim c.cfg.n a s
  mirrors : Mirrors carried c s
  books : Bookkept a c.books

theorem Tracked.checkable (h : Tracked carried a s c) : Checkable a c where
  inv := h.system.inv
  live _ _ hn := h.system.node (System.node_of_up (h.mirrors.slot_up hn))
  books := h.books

/-- From the history `a` of `c` the cluster gets to `c'` with its books untouched. -/
def Follows (carried : χ → List UInt8 → Prop) (a : History) (c c' : Cluster χ) : Prop :=
  ∃ a' s', Tracked carried a' s' c' ∧ Steps (quorums c.cfg.n) a a' ∧ c'.books = c.books

theorem Follows.refl (h : Tracked carried a s c) : Follows carried a c c := ⟨a, s, h, .refl, rfl⟩

theorem Follows.bind (h : Follows carried a c c')
    (h' : ∀ a' s', Tracked carried a' s' c' → Follows carried a' c' c'') :
    Follows carried a c c'' := by
  obtain ⟨a', s', ht, hs, hb⟩ := h
  obtain ⟨a'', s'', ht', hs', hb'⟩ := h' a' s' ht
  have hsize : c'.cfg.n = c.cfg.n := congrArg Books.size hb
  rw [hsize] at hs'
  exact ⟨a'', s'', ht', hs.trans hs', hb'.trans hb⟩

theorem Tracked.moved (h : Tracked carried a s c) (hm : Moved carried c s c') :
    Follows carried a c c' := by
  obtain ⟨s', acts, hrun, hmirrors, hb, _⟩ := hm
  obtain ⟨a', hsim, hs, _⟩ := run_simulates h.system hrun
  have hsize : c'.cfg.n = c.cfg.n := congrArg Books.size hb
  refine ⟨a', s', ⟨by rw [hsize]; exact hsim, hmirrors, ?_⟩, hs, hb⟩
  rw [hb]
  exact h.books.steps h.system.inv hs

/-! ## Restarts -/

/-- A restarted node has every entry it had committed: a restart reports no violation. -/
theorem restart_quiet (h : Tracked carried a s c) {r : Except Violation Unit}
    (hr : c.restart i = .ok (c', r)) : r = .ok () ∧ Follows carried a c c' := by
  unfold restart at hr
  split at hr
  · cases hr
    exact ⟨rfl, .refl h⟩
  next hdown =>
  obtain ⟨c₁, hboot, hr⟩ := Checked.bind_eq_ok.mp hr
  have hfollows := h.moved (boot_moved h.mirrors hdown hboot)
  obtain ⟨a₁, s₁, h₁, _⟩ := id hfollows
  dsimp only at hr
  split at hr
  · cases hr
  next n hn =>
  have hnode := h₁.checkable.live i n hn
  have hcommits := h₁.books.commits i
  obtain ⟨t, hcommitted⟩ := h₁.books.committed
  rw [hnode.log] at hcommits
  have hag : AgreeUpTo (min (c₁.maxCommitSeen i) c₁.committed.length) n.log c₁.committed :=
    hcommits.agree h₁.system.inv hcommitted (min_le_left _ _) (min_le_right _ _)
  rw [if_neg] at hr
  · cases hr
    exact ⟨rfl, hfollows⟩
  · exact not_or.mpr ⟨Nat.not_lt.mpr hag.1, not_not.mpr hag.take_eq⟩

theorem restartAll_quiet {ids : List Nat} (h : Tracked carried a s c) {r : Except Violation Unit}
    (hr : restartAll ids c = .ok (c', r)) : r = .ok () ∧ Follows carried a c c' := by
  induction ids generalizing a s c with
  | nil =>
    cases hr
    exact ⟨rfl, .refl h⟩
  | cons i is ih =>
    obtain ⟨⟨c₁, r₁⟩, hi, hr⟩ := Checked.bind_eq_ok.mp hr
    obtain ⟨rfl, hfollows⟩ := restart_quiet h hi
    obtain ⟨a₁, s₁, h₁, _⟩ := id hfollows
    refine ⟨(ih h₁ hr).1, hfollows.bind fun a' s' h' => (ih h' hr).2⟩

/-! ## One tick -/

theorem injectCrashes_quiet (h : Tracked carried a s c) {f : Faults} {d : Draws}
    {r : Except Violation Unit} (hr : c.injectCrashes f d = .ok (c', r)) :
    r = .ok () ∧ Follows carried a c c' := by
  obtain ⟨c₁, hcrashed, hr⟩ := Checked.bind_eq_ok.mp hr
  have hcrash : Follows carried a c c₁ := by
    split at hcrashed
    · obtain ⟨i, _, rfl⟩ := Checked.map_eq_ok.mp hcrashed
      exact h.moved (crash_moved h.mirrors i)
    · cases hcrashed
      exact .refl h
  obtain ⟨a₁, s₁, h₁, _⟩ := id hcrash
  split at hr
  · obtain ⟨i, _, hr⟩ := Checked.bind_eq_ok.mp hr
    exact ⟨(restart_quiet h₁ hr).1, hcrash.bind fun a' s' h' => (restart_quiet h' hr).2⟩
  · cases hr
    exact ⟨rfl, hcrash⟩

/-- Up to its checks a step reports nothing. -/
theorem advance_quiet (hχ : Channel.Faithful χ carried) (h : Tracked carried a s c) {d : Draws}
    {r : Except Violation Unit} (hr : c.advance d = .ok (c', r)) :
    r = .ok () ∧ Follows carried a c c' := by
  obtain ⟨now, _, hr⟩ := Checked.bind_eq_ok.mp hr
  obtain ⟨⟨c₁, r₁⟩, hinject, hr⟩ := Checked.bind_eq_ok.mp hr
  have hnow : Follows carried a c { c with now } :=
    h.moved (.still ⟨h.mirrors.slots, h.mirrors.sent, h.mirrors.fits⟩ rfl)
  obtain ⟨a₀, s₀, h₀, _⟩ := id hnow
  obtain ⟨rfl, _⟩ := injectCrashes_quiet h₀ hinject
  obtain ⟨c₂, hrest, hr⟩ := Checked.bind_eq_ok.mp hr
  obtain ⟨c₃, hexchange, hr⟩ := Checked.bind_eq_ok.mp hr
  cases hr
  refine ⟨rfl, hnow.bind fun a₁ s₁ h₁ => ?_⟩
  refine (injectCrashes_quiet h₁ hinject).2.bind fun a₂ s₂ h₂ => ?_
  exact h₂.moved ((injectRest_moved hχ h₂.mirrors hrest).bind fun s₃ hm _ =>
    exchange_moved hχ hm hexchange)

/-! ## What the leader check finds -/

/-- The checker's committed log is what nodes were seen to have committed at the checks so far. -/
structure Witnessed (a : History) (seen : List (Cluster χ)) (c : Cluster χ) : Prop where
  recorded : ∀ p ∈ seen, ∀ j m, p.nodes j = some m → m.log.take m.commitIndex <+: c.committed ∧
    a.Certified (quorums c.cfg.n) m.term m.log m.commitIndex ∧ a.Sourced m.log
  observed : ∀ k e, c.committed[k]? = some e → ∃ p ∈ seen, ∃ j m, p.nodes j = some m ∧
    k < m.commitIndex ∧ m.log[k]? = some e

omit [Channel χ] in
theorem Witnessed.follows {a' : History} (h : Witnessed a seen c)
    (hinv : Inv (quorums c.cfg.n) a) (hs : Steps (quorums c.cfg.n) a a')
    (hb : c'.books = c.books) : Witnessed a' seen c' := by
  have hsize : c'.cfg.n = c.cfg.n := congrArg Books.size hb
  have hcommitted : c'.committed = c.committed := congrArg Books.committed hb
  have hext := hs.extends hinv
  refine ⟨fun p hp j m hm => ?_, ?_⟩
  · obtain ⟨hkept, hcert, hsourced⟩ := h.recorded p hp j m hm
    rw [hsize, hcommitted]
    exact ⟨hkept, hcert.mono hext le_rfl, hsourced.mono hext⟩
  · rw [hcommitted]
    exact h.observed

omit [Channel χ] in
/-- The check of a cluster adds the cluster to what was seen. -/
theorem Witnessed.check (h : Witnessed a seen c) (hc : Checkable a c) {c₂ : Cluster χ}
    (hg : Gathered c c₂) : Witnessed a (seen ++ [c]) c₂ := by
  refine ⟨fun p hp j m hm => ?_, fun k e he => ?_⟩
  · rw [hg.same.cfg]
    rcases List.mem_append.mp hp with hp | hp
    · obtain ⟨hpre, hrest⟩ := h.recorded p hp j m hm
      exact ⟨hpre.trans hg.kept, hrest⟩
    · cases List.mem_singleton.mp hp
      have hnode := hc.live j m hm
      exact ⟨hg.recorded j m hm, hnode.commit, hnode.log ▸ hc.inv.log_sourced j⟩
  · rcases hg.observed k e he with he | ⟨i, n, hn, hrest⟩
    · obtain ⟨p, hp, hobs⟩ := h.observed k e he
      exact ⟨p, List.mem_append_left _ hp, hobs⟩
    · exact ⟨c, by simp, i, n, hn, hrest⟩

omit [Channel χ] in
/-- The entry that a leader lacks and a node of a later term was seen to commit is found. -/
theorem Witnessed.lacking_of_overtakes (h : Witnessed a seen c') (hinv : Inv (quorums c.cfg.n) a)
    {p : Cluster χ} (hp : p ∈ seen) (ho : Overtakes p c) :
    ∃ i n, c.nodes i = some n ∧ n.role = .leader ∧ lacking n.term n.log 0 c'.committed ≠ none := by
  obtain ⟨i, n, j, m, k, e, hn, hrole, hm, _, hk, he, hlt, hlacks⟩ := ho
  obtain ⟨hkept, hcert, hsourced⟩ := h.recorded p hp j m hm
  have hag : AgreeUpTo m.commitIndex m.log c'.committed :=
    .of_take_isPrefix hcert.le_length hkept
  have hk' : c'.committed[k]? = some e := by rw [← hag.getElem?_eq hk, he]
  refine ⟨i, n, hn, hrole, fun hnone => ?_⟩
  have hhas := lacking_eq_none_iff.mp hnone k e hk' ?_
  · rw [Nat.zero_add] at hhas
    exact hlacks hhas
  · -- terms do not decrease along a log
    intro x hx
    obtain ⟨y, hy⟩ := List.getElem?_of_mem hx
    have hyk : y < k + 1 := by
      have := (List.getElem?_eq_some_iff.mp hy).1
      rw [List.length_take] at this
      omega
    rw [List.getElem?_take_of_lt hyk, ← hag.getElem?_eq (by omega)] at hy
    exact (hinv.sourced_stamp_le hsourced (by omega) hy he).trans_lt hlt

omit [Channel χ] in
/-- What a node of the leader's term or an earlier one has committed is in the leader's log. -/
theorem Witnessed.overtakes_of_lacking (h : Witnessed a seen c') (hc : Checkable a c)
    (hsame : SameNodes c c') {n : Node Disk} (hn : c.nodes i = some n) (hrole : n.role = .leader)
    (hlacking : lacking n.term n.log 0 c'.committed ≠ none) : ∃ p ∈ seen, Overtakes p c := by
  by_contra hfresh
  refine hlacking (lacking_eq_none_iff.mpr fun k e he hterms => ?_)
  rw [Nat.zero_add]
  by_contra hlacks
  obtain ⟨p, hp, j, m, hm, hk, hek⟩ := h.observed k e he
  have hmem : e ∈ c'.committed.take (k + 1) :=
    List.mem_of_getElem? (i := k) (by rw [List.getElem?_take_of_lt (Nat.lt_succ_self k), he])
  refine hfresh ⟨p, hp, i, n, j, m, k, e, hn, hrole, hm, ?_, hk, hek, hterms e hmem, hlacks⟩
  by_contra hle
  obtain ⟨r, hr, _, hledger, _⟩ := (hc.live i n hn).leader hrole
  obtain ⟨_, hcert, _⟩ := h.recorded p hp j m hm
  rw [hsame.cfg] at hcert
  have hag := certified_in_reign hc.inv hcert (Nat.le_of_not_lt hle) hr
  rw [hledger] at hag
  exact hlacks (by rw [← hag.getElem?_eq hk, hek])

omit [Channel χ] in
/-- A leader's log lacks a committed entry of an earlier term if and only if a node of a later
term was seen to commit it. -/
theorem Witnessed.lacking_iff (h : Witnessed a seen c') (hc : Checkable a c)
    (hsame : SameNodes c c') :
    (∀ i n, c.nodes i = some n → n.role = .leader → lacking n.term n.log 0 c'.committed = none) ↔
      ∀ p ∈ seen, ¬ Overtakes p c := by
  constructor
  · intro hnone p hp ho
    obtain ⟨i, n, hn, hrole, hlacking⟩ := h.lacking_of_overtakes hc.inv hp ho
    exact hlacking (hnone i n hn hrole)
  · intro hfresh i n hn hrole
    by_contra hlacking
    obtain ⟨p, hp, ho⟩ := h.overtakes_of_lacking hc hsame hn hrole hlacking
    exact hfresh p hp ho

/-! ## Runs -/

/-- The cluster is tracked, and its committed log is what was seen. -/
def Watched (carried : χ → List UInt8 → Prop) (seen : List (Cluster χ)) (c : Cluster χ) : Prop :=
  ∃ a s, Tracked carried a s c ∧ Witnessed a seen c

theorem step_quiet_iff (hχ : Channel.Faithful χ carried) (h : Watched carried seen c) {d : Draws}
    {r : Except Violation Unit} (hr : c.step d = .ok (c', r)) :
    ∃ c₁, c.checked (.step d) = [c₁] ∧
      (r = .ok () ↔ ∀ p ∈ seen ++ [c₁], ¬ Overtakes p c₁) ∧
      (r = .ok () → Watched carried (seen ++ [c₁]) c') := by
  obtain ⟨a, s, ht, hw⟩ := h
  obtain ⟨⟨c₁, r₁⟩, hadvance, hr⟩ := Checked.bind_eq_ok.mp hr
  obtain ⟨rfl, a₁, s₁, ht₁, hsteps, hbooks⟩ := advance_quiet hχ ht hadvance
  have hw₁ := hw.follows ht.system.inv hsteps hbooks
  have hcheck := ht₁.checkable
  obtain ⟨c₂, hgathered, hcheck₂, heq, hiff⟩ := checkInvariants_spec hcheck
  have hsame := hgathered.same
  have hw₂ := hw₁.check hcheck hgathered
  have hresult : c₁.checkInvariants = (c', r) := Except.ok.inj hr
  rw [hresult] at heq hiff
  refine ⟨c₁, by simp [checked, hadvance], hiff.trans (hw₂.lacking_iff hcheck hsame), fun hok => ?_⟩
  obtain rfl : c' = c₂ := heq
  exact ⟨a₁, s₁, ⟨by rw [hsame.cfg]; exact ht₁.system, ht₁.mirrors.same hsame, hcheck₂.books⟩, hw₂⟩

theorem apply_cases {op : Op} (hop : ∀ d, op ≠ .step d) {r : Except Violation Unit}
    (hr : c.apply op = .ok (c', r)) :
    (r = .ok () ∧ ((∃ i, c' = c.crash i) ∨ (∃ blocked, c' = { c with blocked }) ∨
      ∃ command a, op = .propose command ∧ c.propose command = .ok (c', a))) ∨
    (∃ i, c.restart i = .ok (c', r)) ∨ c.quiesce = .ok (c', r) := by
  cases op with
  | step d => exact absurd rfl (hop d)
  | crash i =>
    simp only [apply] at hr
    split at hr <;> cases hr
    exact .inl ⟨rfl, .inl ⟨i, rfl⟩⟩
  | restart i =>
    simp only [apply] at hr
    split at hr
    · exact .inr (.inl ⟨i, hr⟩)
    · cases hr
  | partition side =>
    cases hr
    exact .inl ⟨rfl, .inr (.inl ⟨_, rfl⟩)⟩
  | isolate i =>
    simp only [apply] at hr
    split at hr <;> cases hr
    exact .inl ⟨rfl, .inr (.inl ⟨_, rfl⟩)⟩
  | heal =>
    cases hr
    exact .inl ⟨rfl, .inr (.inl ⟨_, rfl⟩)⟩
  | propose command =>
    obtain ⟨⟨c₁, answer⟩, hp, hr⟩ := Checked.bind_eq_ok.mp hr
    cases hr
    exact .inl ⟨rfl, .inr (.inr ⟨command, answer, rfl, hp⟩)⟩
  | quiesce => exact .inr (.inr hr)

theorem call_quiet (hχ : Channel.Faithful χ carried) (h : Tracked carried a s c) {op : Op}
    (hsized : op.Sized) (hop : ∀ d, op ≠ .step d) {r : Except Violation Unit}
    (hr : c.apply op = .ok (c', r)) : r = .ok () ∧ Follows carried a c c' := by
  rcases apply_cases hop hr with
    ⟨rfl, ⟨i, rfl⟩ | ⟨b, rfl⟩ | ⟨command, answer, rfl, hp⟩⟩ | ⟨i, hr⟩ | hr
  · exact ⟨rfl, h.moved (crash_moved h.mirrors i)⟩
  · exact ⟨rfl, h.moved (.still ⟨h.mirrors.slots, h.mirrors.sent, h.mirrors.fits⟩ rfl)⟩
  · exact ⟨rfl, h.moved (propose_moved hχ h.mirrors hsized hp)⟩
  · exact restart_quiet h hr
  · have hstart : Follows carried a c
        ({ c with cfg := { c.cfg with faults := .none } } : Cluster χ).heal :=
      h.moved (.still ⟨h.mirrors.slots, h.mirrors.sent, h.mirrors.fits⟩ rfl)
    obtain ⟨a₁, s₁, h₁, _⟩ := id hstart
    refine ⟨(restartAll_quiet h₁ hr).1, hstart.bind fun a' s' h' => ?_⟩
    exact (restartAll_quiet h' hr).2

theorem checked_of_ne_step {op : Op} (hop : ∀ d, op ≠ .step d) : c.checked op = [] := by
  cases op with
  | step d => exact absurd rfl (hop d)
  | _ => rfl

/-- A call reports nothing if and only if it adds no stale leader to what was seen. -/
theorem apply_quiet_iff (hχ : Channel.Faithful χ carried) (h : Watched carried seen c)
    (hfresh : ¬ StaleLeader seen) {op : Op} (hsized : op.Sized) {r : Except Violation Unit}
    (hr : c.apply op = .ok (c', r)) :
    (r = .ok () ↔ ¬ StaleLeader (seen ++ c.checked op)) ∧
      (r = .ok () → Watched carried (seen ++ c.checked op) c') := by
  by_cases hstep : ∃ d, op = .step d
  · obtain ⟨d, rfl⟩ := hstep
    obtain ⟨c₁, hchecked, hiff, hwatched⟩ := step_quiet_iff hχ h hr
    rw [hchecked, staleLeader_concat, not_or]
    refine ⟨hiff.trans ⟨fun hall => ⟨hfresh, fun ⟨p, hp, ho⟩ => hall p hp ho⟩, ?_⟩, hwatched⟩
    exact fun hnot p hp ho => hnot.2 ⟨p, hp, ho⟩
  · -- nothing is checked, and the committed log stays
    have hop : ∀ d, op ≠ .step d := not_exists.mp hstep
    obtain ⟨a, s, ht, hw⟩ := h
    obtain ⟨rfl, a', s', ht', hsteps, hbooks⟩ := call_quiet hχ ht hsized hop hr
    rw [checked_of_ne_step hop, List.append_nil]
    exact ⟨iff_of_true rfl hfresh,
      fun _ => ⟨a', s', ht', hw.follows ht.system.inv hsteps hbooks⟩⟩

theorem next_eq_some {op : Op} (h : c.next op = some c') : ∃ r, c.apply op = .ok (c', r) := by
  unfold next at h
  split at h
  · next c₁ r hr =>
    cases h
    exact ⟨r, hr⟩
  · cases h

theorem quiet_iff {op : Op} {r : Except Violation Unit} (hr : c.apply op = .ok (c', r)) :
    c.Quiet op ↔ r = .ok () := by
  cases r with
  | ok u => simp [Quiet, reported, hr]
  | error v => simp [Quiet, reported, hr]

/-- Nothing is committed in the start cluster. -/
theorem new_watched (hχ : Channel.Faithful χ carried) {cfg : ClusterConfig}
    (h : Cluster.new cfg = .ok c) : Watched carried [] c := by
  unfold Cluster.new at h
  generalize hc₀ : Cluster.mk cfg _ _ _ _ _ _ _ _ _ _ = c₀ at h
  have hmirrors : Mirrors carried c₀ System.initial := by
    subst hc₀
    exact ⟨rfl, fun i j b m hb => absurd hb (hχ.new _ b), fun _ => ⟨by decide, by decide, nofun⟩⟩
  have hbooks : Bookkept Ledger.initial c₀.books := by
    subst hc₀
    exact ⟨fun t i ht => (nomatch ht), fun i => Nat.zero_le _, fun i => .inl rfl, 0, .inl rfl⟩
  have hstart : Tracked carried Ledger.initial System.initial c₀ :=
    ⟨SystemSim.initial _, hmirrors, hbooks⟩
  have hdown : ∀ i ∈ List.range cfg.n, c₀.nodes i = none := by
    subst hc₀
    exact fun _ _ => rfl
  obtain ⟨a, s, ht, _, hsame⟩ := hstart.moved (bootAll_moved hmirrors List.nodup_range hdown h)
  have hcommitted : c.committed = c₀.committed := congrArg Books.committed hsame
  refine ⟨a, s, ht, fun p hp => (nomatch hp), fun k e he => ?_⟩
  rw [hcommitted] at he
  subst hc₀
  cases he

/-- A link that hands out every datagram, intact, one tick after it was sent. -/
structure DelayLine where
  clock : Nat
  queue : List (Nat × List UInt8)

namespace DelayLine

instance : Channel DelayLine where
  Error := String
  codec := plainFrames
  new _ := ⟨0, []⟩
  send c b := { c with queue := c.queue ++ [(c.clock, b)] }
  advance c t :=
    ({ clock := t, queue := c.queue.filter fun p => t < p.1 + 1 },
      (c.queue.filter fun p => p.1 + 1 ≤ t).map fun p => p.2)

def Carried (c : DelayLine) (b : List UInt8) : Prop := b ∈ c.queue.map Prod.snd

theorem faithful : Channel.Faithful DelayLine Carried where
  frames := plainFrames_faithful
  new _ _ hb := nomatch hb
  send c b b' hb := by
    have hb : b' ∈ (c.queue ++ [(c.clock, b)]).map Prod.snd := hb
    rw [List.map_append, List.mem_append] at hb
    rcases hb with hb | hb
    · exact .inr hb
    · exact .inl (List.mem_singleton.mp hb)
  advance c t b hb := by
    obtain ⟨p, hp, rfl⟩ := List.mem_map.mp hb
    exact List.mem_map_of_mem (List.mem_of_mem_filter hp)
  arrives c t b hb := by
    obtain ⟨p, hp, rfl⟩ := List.mem_map.mp hb
    exact .inl (List.mem_map_of_mem (List.mem_of_mem_filter hp))

end DelayLine

namespace Cluster

/-- Three nodes with the same election timeout, and no injected faults. -/
def trio : ClusterConfig := ⟨3, 0, .none, (5, 5), 2⟩

def start : Cluster DelayLine := (Cluster.new trio).toOption.get (by decide +kernel)

theorem new_trio : Cluster.new trio = .ok start := Checked.eq_ok_get _

def still : Draws := ⟨false, 0, false, 0, false, fun _ => false, false, false, fun _ => false⟩

def steps (k : Nat) : List Op := List.replicate k (.step still)

end Cluster

end Landsraad
