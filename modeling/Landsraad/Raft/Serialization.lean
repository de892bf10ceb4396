import Landsraad.Raft.Proposals

/-!
# One order of commits

Whatever the nodes commit in a run is a prefix of one sequence. An entry of it is the no-op of an
election or one accepted proposal, and the order of the proposals agrees with real time: one that
is accepted after another was committed stands behind it.
-/

namespace Landsraad

open ReplicatedLog ReplicatedLog.Ledger

def Node.committedLog (n : Node Disk) : List Entry := n.log.take n.commitIndex

theorem Node.getElem?_committedLog {n : Node Disk} {k : Nat} {e : Entry} :
    n.committedLog[k]? = some e ↔ k < n.commitIndex ∧ n.log[k]? = some e := by
  rw [committedLog, List.getElem?_take]
  split <;> simp [*]

namespace System

/-- What each live node of a cluster of `size` has committed. -/
def committedLogs (size : Nat) (s : System) : List (List Entry) :=
  (List.range size).filterMap fun i => (s.node i).map Node.committedLog

/-- What was committed in the run `acts`: the longest log that any node has committed at any of
its moments. -/
def committedIn (size : Nat) (acts : List Action) : List Entry :=
  longest (acts.inits.flatMap fun ys => ((initial.run size ys).map (committedLogs size)).getD [])

/-- A live node has committed the entry of the accepted proposal. -/
def Commits (s : System) (x : Acceptance) : Prop :=
  ∃ i n, s.node i = some n ∧ n.committedLog[x.index - 1]? = some ⟨x.term, x.command⟩

end System

section

variable {size : Nat} {acts acts' ys : List Action} {s s' : System} {i : Nat} {n : Node Disk}

theorem System.mem_committedLogs {l : List Entry} (h : System.initial.run size acts = some s) :
    l ∈ s.committedLogs size ↔ ∃ i n, s.node i = some n ∧ n.committedLog = l := by
  obtain ⟨a, hsim, _, _⟩ := run_simulates (.initial size) h
  simp only [System.committedLogs, List.mem_filterMap, List.mem_range, Option.map_eq_some_iff]
  constructor
  · rintro ⟨i, _, n, hn, rfl⟩
    exact ⟨i, n, hn, rfl⟩
  · rintro ⟨i, n, hn, rfl⟩
    exact ⟨i, (hsim.node hn).lt_size, n, hn, rfl⟩

theorem comparable_of_moments {j : Nat} {m : Node Disk} (h : System.Moments size s s')
    (hi : s.node i = some n) (hj : s'.node j = some m) :
    n.committedLog <+: m.committedLog ∨ m.committedLog <+: n.committedLog := by
  obtain ⟨a, a', hsim, hsim', hsteps, _⟩ := Moments.simulates h
  have hn := (hsim.node hi).commit.mono (hsteps.extends hsim.inv) le_rfl
  have hm := (hsim'.node hj).commit
  exact (hn.agree hsim'.inv hm (min_le_left _ _) (min_le_right _ _)).isPrefix_or

theorem comparable_of_isPrefix {zs : List Action} {j : Nat} {m : Node Disk} (hys : ys <+: acts)
    (hzs : zs <+: acts) (h : System.initial.run size ys = some s)
    (h' : System.initial.run size zs = some s') (hi : s.node i = some n)
    (hj : s'.node j = some m) :
    n.committedLog <+: m.committedLog ∨ m.committedLog <+: n.committedLog := by
  have hmoments : ∀ {ys zs : List Action} {s s' : System}, ys <+: zs →
      System.initial.run size ys = some s → System.initial.run size zs = some s' →
      System.Moments size s s' := by
    rintro ys _ s s' ⟨more, rfl⟩ h h'
    obtain ⟨s₁, h₁, hmore⟩ := Run.exec_append_eq_some.mp h'
    rw [System.run, h₁] at h
    cases h
    exact ⟨ys, more, h₁, hmore⟩
  rcases List.prefix_or_prefix_of_prefix hys hzs with hle | hle
  · exact comparable_of_moments (hmoments hle h h') hi hj
  · exact (comparable_of_moments (hmoments hle h' h) hj hi).symm

theorem mem_moments {l : List Entry} :
    l ∈ acts.inits.flatMap (fun ys =>
        ((System.initial.run size ys).map (System.committedLogs size)).getD []) ↔
      ∃ ys s i n, ys <+: acts ∧ System.initial.run size ys = some s ∧ s.node i = some n ∧
        n.committedLog = l := by
  simp only [List.mem_flatMap, List.mem_inits]
  constructor
  · rintro ⟨ys, hys, hl⟩
    cases hrun : System.initial.run size ys with
    | none => simp [hrun] at hl
    | some s =>
      rw [hrun, Option.map_some, Option.getD_some, System.mem_committedLogs hrun] at hl
      obtain ⟨i, n, hn, hlog⟩ := hl
      exact ⟨ys, s, i, n, hys, hrun, hn, hlog⟩
  · rintro ⟨ys, s, i, n, hys, hrun, hn, hlog⟩
    refine ⟨ys, hys, ?_⟩
    rw [hrun, Option.map_some, Option.getD_some, System.mem_committedLogs hrun]
    exact ⟨i, n, hn, hlog⟩

theorem committedLog_isPrefix (hys : ys <+: acts) (h : System.initial.run size ys = some s)
    (hi : s.node i = some n) : n.committedLog <+: System.committedIn size acts := by
  apply isPrefix_longest
  · intro l hl l' hl'
    obtain ⟨ys, s, i, n, hys, hs, hn, rfl⟩ := mem_moments.mp hl
    obtain ⟨zs, s', j, m, hzs, hs', hm, rfl⟩ := mem_moments.mp hl'
    exact comparable_of_isPrefix hys hzs hs hs' hn hm
  · exact mem_moments.mpr ⟨ys, s, i, n, hys, h, hi, rfl⟩

theorem committedIn_eq (size : Nat) (acts : List Action) :
    System.committedIn size acts = [] ∨ ∃ ys s i n, ys <+: acts ∧
      System.initial.run size ys = some s ∧ s.node i = some n ∧
      n.committedLog = System.committedIn size acts := by
  by_cases hnil : acts.inits.flatMap (fun ys =>
      ((System.initial.run size ys).map (System.committedLogs size)).getD []) = []
  · left
    rw [System.committedIn, hnil]
    rfl
  · exact .inr (mem_moments.mp (longest_mem hnil))

theorem committedIn_mono (hys : ys <+: acts) :
    System.committedIn size ys <+: System.committedIn size acts := by
  rcases committedIn_eq size ys with hnil | ⟨zs, s, i, n, hzs, hs, hn, hlog⟩
  · rw [hnil]
    exact List.nil_prefix
  · rw [← hlog]
    exact committedLog_isPrefix (hzs.trans hys) hs hn

/-! ## Real time -/

/-- What an action adds to the accepted proposals is the next entry of the reign of its term. -/
theorem perform_accepted {a a' : History} {act : Action} (h : Performed size act a s a' s')
    (hp : s.perform size act = some s') {y : Acceptance} (hy : y ∈ s'.accepted) :
    y ∈ s.accepted ∨ ∃ r, a.reign y.term = some r ∧ y.index = r.ledger.length + 1 := by
  by_cases hwhole : act.Whole
  · cases h.observed hwhole with
    | nothing _ accepted _ => exact .inl (accepted ▸ hy)
    | election _ _ _ _ _ accepted _ => exact .inl (accepted ▸ hy)
    | acceptance t r command reigning _ accepted _ =>
      rw [accepted] at hy
      rcases List.mem_append.mp hy with hy | hy
      · exact .inl hy
      · cases List.mem_singleton.mp hy
        exact .inr ⟨r, reigning, rfl⟩
  · -- a call that is cut short answers nothing
    cases act with
    | call i c fate =>
      obtain ⟨n, d, m, n', out, answer, _, _, _, _, ⟨rfl, _⟩ | ⟨rfl, _⟩ | ⟨lost, _, _, rfl⟩⟩ :=
        System.performCall_ok hp
      · exact absurd trivial hwhole
      · exact absurd trivial hwhole
      · exact .inl hy
    | _ => exact absurd trivial hwhole

/-- A proposal that a run adds to the accepted ones stands behind the whole reign of its term as
it was at the start of the run. -/
theorem run_accepted_later {a : History} (hsim : SystemSim size a s)
    (h : s.run size acts = some s') :
    ∃ a', SystemSim size a' s' ∧ Steps (quorums size) a a' ∧ ∀ y ∈ s'.accepted,
      y ∈ s.accepted ∨ ∀ r, a.reign y.term = some r → r.ledger.length < y.index := by
  refine Run.exec_induction (P := fun s' => ∃ a', SystemSim size a' s' ∧
    Steps (quorums size) a a' ∧ ∀ y ∈ s'.accepted,
      y ∈ s.accepted ∨ ∀ r, a.reign y.term = some r → r.ledger.length < y.index)
    ⟨a, hsim, .refl, fun y hy => .inl hy⟩ ?_ h
  rintro s₁ s₂ act - ⟨a₁, hsim₁, hsteps, hall⟩ hp
  obtain ⟨a₂, hperf⟩ := perform_simulates hsim₁ hp
  refine ⟨a₂, hperf.sim, hsteps.trans hperf.steps, fun y hy => ?_⟩
  rcases perform_accepted hperf hp hy with hold | ⟨r₁, hr₁, hindex⟩
  · exact hall y hold
  · refine .inr fun r hr => ?_
    obtain ⟨r', hr', _, _, hprefix⟩ := (hsteps.extends hsim.inv).reign hr
    rw [hr₁] at hr'
    cases hr'
    rw [hindex]
    exact Nat.lt_succ_of_le hprefix.length_le

theorem index_lt_of_commits {x y : Acceptance} (hys : ys <+: acts)
    (h : System.initial.run size ys = some s) (h' : System.initial.run size acts = some s')
    (hx : s.Commits x) (hy : y ∈ s'.accepted) (hnew : y ∉ s.accepted)
    (hcommitted : (System.committedIn size acts)[y.index - 1]? = some ⟨y.term, y.command⟩) :
    x.index < y.index := by
  obtain ⟨i, n, hn, hlog⟩ := hx
  obtain ⟨more, rfl⟩ := hys
  obtain ⟨s₁, h₁, hmore⟩ := Run.exec_append_eq_some.mp h'
  rw [System.run, h₁] at h
  cases h
  obtain ⟨a, hsim, _, _⟩ := run_simulates (.initial size) h₁
  obtain ⟨_, _, _, hlater⟩ := run_accepted_later hsim hmore
  by_contra hle
  -- the entry of `y` would have been in the log of `n` before `y` was accepted
  have hlt : x.index - 1 < n.committedLog.length := (List.getElem?_eq_some_iff.mp hlog).1
  have hprefix := committedLog_isPrefix (List.prefix_append ys more) h₁ hn
  have hsame : n.committedLog[y.index - 1]? = some ⟨y.term, y.command⟩ := by
    rw [← hcommitted]
    exact (AgreeUpTo.of_isPrefix hprefix le_rfl).getElem?_eq (by omega)
  have hin := (Node.getElem?_committedLog.mp hsame).2
  obtain ⟨r, hr, _, hk⟩ := hsim.origin (.inl ⟨i, n, hn, rfl⟩) hin
  have hlen := (List.getElem?_eq_some_iff.mp hk).1
  rcases hlater y hy with hold | hbeyond
  · exact hnew hold
  · have := hbeyond r hr
    omega

/-- An entry that the run has committed is a no-op of an election or one accepted proposal. -/
theorem committedIn_accounted (hwhole : ∀ act ∈ acts, act.Whole)
    (h : System.initial.run size acts = some s') {k : Nat} {e : Entry}
    (he : (System.committedIn size acts)[k]? = some e) : s'.Accounted (k + 1) e := by
  rcases committedIn_eq size acts with hnil | ⟨ys, s, i, n, hys, hs, hn, hlog⟩
  · simp [hnil] at he
  obtain ⟨more, rfl⟩ := hys
  obtain ⟨s₁, h₁, hmore⟩ := Run.exec_append_eq_some.mp h
  rw [System.run, h₁] at hs
  cases hs
  obtain ⟨a, hsim, hrec, _⟩ := run_recorded
    (fun act ha => hwhole act (List.mem_append_left _ ha)) (.initial size) .initial h₁
  obtain ⟨a', hsim', hrec', _, hsteps⟩ := run_recorded_steps
    (fun act ha => hwhole act (List.mem_append_right _ ha)) hsim hrec hmore
  rw [← hlog, Node.getElem?_committedLog] at he
  have hl := Ledger.Sourced.mono (hsteps.extends hsim.inv) (hsim.sourced (.inl ⟨i, n, hn, rfl⟩))
  obtain ⟨r, hr, hbase, hk⟩ := Sourced.origin hsim'.inv hl he.2
  exact hrec'.accounted_of_reign hr hbase hk

/-- All that is committed in a run is one sequence: what a node has committed at any moment is a
prefix of it, and it only grows. A proposal that is accepted after another one was committed comes
later in it. Where no node crashes inside a call, each of its entries is the no-op of one election
or one accepted proposal. -/
theorem commits_serialize (h : System.initial.run size acts = some s') :
    (∀ ys s i n, ys <+: acts → System.initial.run size ys = some s → s.node i = some n →
      n.committedLog <+: System.committedIn size acts) ∧
    (∀ ys, ys <+: acts → System.committedIn size ys <+: System.committedIn size acts) ∧
    (∀ ys s x y, ys <+: acts → System.initial.run size ys = some s → s.Commits x →
      y ∈ s'.accepted → y ∉ s.accepted →
      (System.committedIn size acts)[y.index - 1]? = some ⟨y.term, y.command⟩ →
      x.index < y.index) ∧
    ((∀ act ∈ acts, act.Whole) → ∀ k e, (System.committedIn size acts)[k]? = some e →
      s'.Accounted (k + 1) e) :=
  ⟨fun _ _ _ _ hys hs hn => committedLog_isPrefix hys hs hn, fun _ hys => committedIn_mono hys,
    fun _ _ _ _ hys hs hx hy hnew hc => index_lt_of_commits hys hs h hx hy hnew hc,
    fun hwhole _ _ he => committedIn_accounted hwhole h he⟩

end

namespace System

/-- The proposal that node 0 has accepted reaches node 1 and is committed. -/
def settling : List Action :=
  opening ++ reigning ++ [.call 1 (.handle 1 0 (.appendEntries 1 1 1 [⟨1, [7]⟩] 1)) .returns,
    .call 0 (.handle 1 1 (.appendResponse 1 true 2)) .returns]

/-- Only then node 0 accepts a second one, which is committed as well. -/
def resumption : List Action :=
  [.call 0 (.propose 1 [8]) .returns,
    .call 1 (.handle 1 0 (.appendEntries 1 2 1 [⟨1, [8]⟩] 2)) .returns,
    .call 0 (.handle 1 1 (.appendResponse 1 true 3)) .returns]

def settled : System := (initial.run 3 settling).get (by decide +kernel)

def resumed : System := (initial.run 3 (settling ++ resumption)).get (by decide +kernel)

end System

theorem commits_serialize_resumed :
    System.committedIn 3 System.settling <+:
        System.committedIn 3 (System.settling ++ System.resumption) ∧
      (⟨0, 1, 2, [7]⟩ : Acceptance).index < (⟨0, 1, 3, [8]⟩ : Acceptance).index ∧
      System.resumed.Accounted 3 ⟨1, [8]⟩ := by
  have hsettled : System.initial.run 3 System.settling = some System.settled :=
    (Option.some_get _).symm
  have hresumed : System.initial.run 3 (System.settling ++ System.resumption) =
      some System.resumed := (Option.some_get _).symm
  have hprefix : System.settling <+: System.settling ++ System.resumption :=
    List.prefix_append _ _
  have hcommits : System.settled.Commits ⟨0, 1, 2, [7]⟩ := ⟨0, _, rfl, by decide +kernel⟩
  have hwhole : ∀ act ∈ System.settling ++ System.resumption, act.Whole := by
    simp [System.settling, System.resumption, System.opening, System.reigning, Action.Whole]
  obtain ⟨_, hgrows, hordered, haccounted⟩ := commits_serialize hresumed
  refine ⟨hgrows _ hprefix, ?_, haccounted hwhole 2 ⟨1, [8]⟩ (by decide +kernel)⟩
  exact hordered _ _ _ _ hprefix hsettled hcommits (by decide +kernel) (by decide +kernel)
    (by decide +kernel)

end Landsraad
