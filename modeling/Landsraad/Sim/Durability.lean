import Landsraad.Sim.Alarms

/-!
# What was seen committed stays

The checker remembers the longest committed prefix that it has seen. Whatever happens to the
cluster afterwards, and whether or not a violation is reported, this list only grows, more than
half of the storages hold it, and so does the log of every leader that a majority can follow.
-/

namespace Landsraad

open ReplicatedLog ReplicatedLog.Ledger Cluster Run

namespace Cluster

variable {χ : Type}

/-- What node `i` has on its disk, be it up or down. -/
def stored (c : Cluster χ) (i : Nat) : Persistent := (c.slot i).disk.current

/-- More than half of the nodes have this on their disks. -/
def Mostly (c : Cluster χ) (P : Persistent → Prop) [DecidablePred P] : Prop :=
  c.cfg.n < 2 * ((Finset.range c.cfg.n).filter fun i => P (c.stored i)).card

instance (c : Cluster χ) (P : Persistent → Prop) [DecidablePred P] : Decidable (c.Mostly P) :=
  inferInstanceAs (Decidable (_ < _))

end Cluster

variable {χ : Type} [Channel χ] {carried : χ → List UInt8 → Prop} {a : History} {s : System}
  {c c' c'' : Cluster χ}

theorem Tracked.stored (h : Tracked carried a s c) (i : Nat) : DiskSim i a (c.stored i) := by
  have hslot := (h.system.slot i).disk
  rw [h.mirrors.slots] at hslot
  exact hslot

/-- From the history `a` of `c` the cluster gets to `c'`, and the checker forgets nothing. -/
def Remembers (carried : χ → List UInt8 → Prop) (a : History) (c c' : Cluster χ) : Prop :=
  ∃ a' s', Tracked carried a' s' c' ∧ Steps (quorums c.cfg.n) a a' ∧ c'.cfg.n = c.cfg.n ∧
    c.committed <+: c'.committed

theorem Remembers.refl (h : Tracked carried a s c) : Remembers carried a c c :=
  ⟨a, s, h, .refl, rfl, List.prefix_rfl⟩

theorem Follows.remembers (h : Follows carried a c c') : Remembers carried a c c' := by
  obtain ⟨a', s', ht, hs, hb⟩ := h
  have hcommitted : c'.committed = c.committed := congrArg Books.committed hb
  exact ⟨a', s', ht, hs, congrArg Books.size hb, by rw [hcommitted]⟩

theorem Remembers.bind (h : Remembers carried a c c')
    (h' : ∀ a' s', Tracked carried a' s' c' → Remembers carried a' c' c'') :
    Remembers carried a c c'' := by
  obtain ⟨a', s', ht, hs, hsize, hgrows⟩ := h
  obtain ⟨a'', s'', ht', hs', hsize', hgrows'⟩ := h' a' s' ht
  rw [hsize] at hs'
  exact ⟨a'', s'', ht', hs.trans hs', hsize'.trans hsize, hgrows.trans hgrows'⟩

theorem apply_remembers (hχ : Channel.Faithful χ carried) (h : Tracked carried a s c) {op : Op}
    (hsized : op.Sized) {r : Except Violation Unit} (hr : c.apply op = .ok (c', r)) :
    Remembers carried a c c' := by
  by_cases hstep : ∃ d, op = .step d
  · obtain ⟨d, rfl⟩ := hstep
    obtain ⟨⟨c₁, r₁⟩, hadvance, hr⟩ := Checked.bind_eq_ok.mp hr
    obtain ⟨rfl, hfollows⟩ := advance_quiet hχ h hadvance
    refine hfollows.remembers.bind fun a₁ s₁ h₁ => ?_
    -- the books are right also where the check of leaders fails
    obtain ⟨c₂, hgathered, hcheck, heq, _⟩ := checkInvariants_spec h₁.checkable
    have hresult : c₁.checkInvariants = (c', r) := Except.ok.inj hr
    rw [hresult] at heq
    obtain rfl : c' = c₂ := heq
    have hsame := hgathered.same
    refine ⟨a₁, s₁, ⟨?_, h₁.mirrors.same hsame, hcheck.books⟩, .refl, by rw [hsame.cfg],
      hgathered.kept⟩
    rw [hsame.cfg]
    exact h₁.system
  · exact (call_quiet hχ h hsized (not_exists.mp hstep) hr).2.remembers

theorem run_remembers (hχ : Channel.Faithful χ carried) (h : Tracked carried a s c)
    {ops : List Op} (hsized : ∀ op ∈ ops, op.Sized) (hrun : exec next c ops = some c') :
    Remembers carried a c c' := by
  refine exec_induction (P := Remembers carried a c) (.refl h) ?_ hrun
  intro c₁ c₂ op hop hfirst hnext
  obtain ⟨r, hr⟩ := next_eq_some hnext
  exact hfirst.bind fun a' s' h' => apply_remembers hχ h' (hsized op hop) hr

/-- Commands have fewer than `2 ^ 32` bytes. Once the checker has seen a committed log it never
loses any of it, a majority of the storages holds it at every later moment, whichever nodes are
down, and so does every later leader whose term was not behind those of a majority of storages
when the log was seen. -/
theorem committed_never_lost (hχ : Channel.Faithful χ carried) {cfg : ClusterConfig}
    {c₀ : Cluster χ} (hnew : Cluster.new cfg = .ok c₀) {ops more : List Op}
    (hsized : ∀ op ∈ ops, op.Sized) (hsized' : ∀ op ∈ more, op.Sized)
    (h : exec next c₀ ops = some c) (h' : exec next c more = some c') :
    c.committed <+: c'.committed ∧
      (c.committed ≠ [] → c'.Mostly fun p => c.committed <+: p.log) ∧
      ∀ i n, c'.nodes i = some n → n.role = .leader → (c.Mostly fun p => p.term ≤ n.term) →
        c.committed <+: n.log := by
  obtain ⟨a₀, s₀, h₀, _⟩ := new_watched hχ hnew
  obtain ⟨a, s, hc, _⟩ := run_remembers hχ h₀ hsized h
  obtain ⟨a', s', hc', hsteps, hsize, hgrows⟩ := run_remembers hχ hc hsized' h'
  obtain ⟨t, hcert⟩ := hc.books.committed
  have hinv' := hc'.system.inv
  rw [hsize] at hinv'
  have hext := hsteps.extends hc.system.inv
  refine ⟨hgrows, fun hne => ?_, fun i n hn hrole hmostly => ?_⟩
  · rcases hcert with hzero | ⟨u, k, r, _, hr, hcom, hk, hag⟩
    · exact absurd (List.eq_nil_of_length_eq_zero hzero) hne
    obtain ⟨r', hr', _, _, hgrown⟩ := hext.reign hr
    obtain ⟨Q, hQ, hall⟩ := CommittedAt.durable hinv' (hcom.mono hext) hr'
    have hmajority := majority_lt_filter (P := fun i => c.committed <+: (c'.stored i).log) hQ
      fun w hw => by
        rw [← (hc'.stored w).log]
        exact agreeUpTo_length_iff.mp
          ((hag.prefix_right hgrown).trans ((hall w hw).mono hk).symm)
    rw [Finset.card_range] at hmajority
    rw [Mostly, hsize]
    exact hmajority
  · have hQ : (quorums c.cfg.n).IsQuorum
        ((Finset.range c.cfg.n).filter fun i => (c.stored i).term ≤ n.term) :=
      isQuorum_filter (by rw [Finset.card_range]; exact hmostly)
    have hcert' := (hcert.of_quorum hc.system.inv hQ fun w hw => by
      rw [(hc.stored w).epoch]
      exact (Finset.mem_filter.mp hw).2).mono hext le_rfl
    obtain ⟨r, hr, _, hledger, _⟩ := (hc'.checkable.live i n hn).leader hrole
    have hag := certified_in_reign hinv' hcert' le_rfl hr
    rw [hledger] at hag
    exact agreeUpTo_length_iff.mp hag

namespace Cluster

/-- Node 0 is elected and commits its no-op. -/
def settling : List Op :=
  [.crash 1, .crash 2] ++ steps 4 ++ [.restart 1, .restart 2] ++ steps 5

/-- All nodes crash, and two of them come back without the leader. -/
def blackout : List Op :=
  [.crash 0, .crash 1, .crash 2, .restart 2] ++ steps 3 ++ [.restart 1] ++ steps 6

def settled : Cluster DelayLine := (exec next start settling).get (by decide +kernel)

def recovered : Cluster DelayLine := (exec next settled blackout).get (by decide +kernel)

def successor : Node Disk := (recovered.nodes 2).get (by decide +kernel)

end Cluster

/-- The two that came back have elected a leader that still has the no-op. -/
theorem committed_never_lost_recovered :
    (Cluster.recovered.Mostly fun p => [⟨1, []⟩] <+: p.log) ∧
      Cluster.successor.term = 2 ∧ [⟨1, []⟩] <+: Cluster.successor.log := by
  have hseen : Cluster.settled.committed = [⟨1, []⟩] := by decide +kernel
  have hleader : Cluster.successor.term = 2 ∧ Cluster.successor.role = .leader := by
    decide +kernel
  have hmostly : Cluster.settled.Mostly fun p => p.term ≤ Cluster.successor.term := by
    decide +kernel
  have hup : Cluster.recovered.nodes 2 = some Cluster.successor := (Option.some_get _).symm
  have hbefore : exec next start settling = some settled := (Option.some_get _).symm
  have hafter : exec next settled blackout = some recovered := (Option.some_get _).symm
  obtain ⟨_, hstored, hheld⟩ := committed_never_lost DelayLine.faithful new_trio (by decide)
    (by decide) hbefore hafter
  rw [hseen] at hstored hheld
  exact ⟨hstored (List.cons_ne_nil _ _), hleader.1, hheld 2 _ hup hleader.2 hmostly⟩

end Landsraad
