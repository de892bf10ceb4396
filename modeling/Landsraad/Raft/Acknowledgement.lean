import Landsraad.Raft.Safety

/-!
# Acknowledgements

A successful AppendResponse promises that its sender holds the leader's log up to the index it
names. The promise is kept for as long as the sender stays in that term, through any number of
crashes, and the match index of a leader never claims more than such a promise.
-/

namespace Landsraad

open ReplicatedLog ReplicatedLog.Ledger Checked

namespace Node

variable {n n' : Node Disk} {now : Nat} {out : List Outgoing}

/-- What the call `c`, which left the node `n'`, must have been to return the message: an
AppendEntries comes from a leader whose log reaches its end, a successful AppendResponse
answers an AppendEntries that reaches its match index. -/
def Originates (n' : Node Disk) (c : Call) : Message → Prop
  | .appendEntries term prevIndex _ entries _ =>
    n'.role = .leader ∧ n'.term = term ∧ prevIndex + entries.length ≤ n'.log.length
  | .appendResponse term true matchIndex =>
    ∃ now sender prevIndex prevTerm entries leaderCommit,
      c = .handle now sender (.appendEntries term prevIndex prevTerm entries leaderCommit) ∧
      matchIndex = prevIndex + entries.length
  | _ => True

theorem appendFor_originates {p : Nat} {o : Outgoing} (c : Call) (hrole : n.role = .leader)
    (h : n.appendFor p = .ok o) : n.Originates c o.message := by
  obtain ⟨prevIndex, prevTerm, entries, hslice, rfl, _⟩ := appendFor_ok h
  exact ⟨hrole, rfl, hslice.end_le⟩

theorem broadcastAppend_originates (c : Call) (hrole : n.role = .leader)
    (h : n.broadcastAppend = .ok out) : ∀ o ∈ out, n.Originates c o.message :=
  fun _ ho => appendFor_originates c hrole (broadcastAppend_sends h ho).2

theorem becomeLeader_originates (c : Call) (h : n.becomeLeader now = .ok (n', out)) :
    ∀ o ∈ out, n'.Originates c o.message := by
  obtain ⟨_, _, rfl, _, hout, _⟩ := becomeLeader_ok h
  exact broadcastAppend_originates c rfl hout

theorem receive_originates {sender : Nat} {msg : Message} (hterm : msg.term ≤ n.term)
    (h : n.receive now sender msg = .ok (n', out)) :
    ∀ o ∈ out, n'.Originates (.handle now sender msg) o.message := by
  have hempty : ∀ o ∈ ([] : List Outgoing), n'.Originates (.handle now sender msg) o.message := by
    simp
  cases msg with
  | requestVote term lastLogIndex lastLogTerm =>
    rcases onRequestVote_ok h with ⟨_, rfl⟩ | ⟨_, _, _, rfl, _⟩ <;>
      simp [Originates]
  | voteResponse term granted =>
    rcases onVoteResponse_ok h with ⟨_, rfl⟩ | ⟨_, _, _, _, ⟨_, hl⟩ | ⟨_, rfl⟩⟩
    · exact hempty
    · exact becomeLeader_originates _ hl
    · exact hempty
  | appendEntries term prevIndex prevTerm entries leaderCommit =>
    rcases onAppendEntries_ok h with ⟨_, _, rfl⟩ | ⟨hge, _, deadline, rng, hcase⟩
    · simp [Originates]
    rcases hcase with ⟨_, _, rfl⟩ | ⟨hprev, _, m, hm, _, rfl⟩
    · simp [Originates]
    · have hmterm : m.term = term := (mergeEntries_frame hprev hm).2.trans (le_antisymm hge hterm)
      intro o ho
      rw [List.mem_singleton.mp ho, hmterm]
      exact ⟨now, sender, prevIndex, prevTerm, entries, leaderCommit, rfl, rfl⟩
  | appendResponse term success matchIndex =>
    rcases onAppendResponse_ok h with ⟨_, _, rfl⟩ | ⟨hrole, _, known, _, hcase⟩
    · exact hempty
    have hrole' : n'.role = .leader := by
      rcases hcase with ⟨_, hcommit, _⟩ | ⟨_, next, o, _, rfl, _⟩
      · obtain ⟨c, rfl, _⟩ := advanceCommit_ok hcommit
        exact hrole
      · exact hrole
    rcases hcase with ⟨_, _, ⟨_, rfl⟩ | ⟨_, o, ho, rfl⟩⟩ | ⟨_, _, o, _, _, ho, rfl⟩
    · exact hempty
    · simpa using appendFor_originates _ hrole' ho
    · simpa using appendFor_originates _ hrole' ho

theorem call_originates {c : Call} {answer : Option Nat} (h : n.call c = .ok (n', out, answer)) :
    ∀ o ∈ out, n'.Originates c o.message := by
  cases c with
  | tick now =>
    obtain ⟨ht, rfl⟩ := call_tick_ok h
    rcases tick_ok ht with ⟨_, rfl⟩ | ⟨hrole, deadline, rfl, hout⟩ | ⟨_, hs⟩
    · simp
    · exact broadcastAppend_originates _ hrole hout
    · obtain ⟨deadline, rng, _, hcase⟩ := startElection_ok hs
      rcases hcase with ⟨_, hl⟩ | ⟨_, t, _, rfl⟩
      · exact becomeLeader_originates _ hl
      · intro o ho
        obtain ⟨p, _, rfl⟩ := List.mem_map.mp ho
        trivial
  | propose now command =>
    obtain ⟨r, hp, rfl, _⟩ := call_propose_ok h
    rcases propose_ok hp with ⟨_, _, rfl⟩ | ⟨hrole, c, out', rfl, _, rfl, hout, _⟩
    · simp [Except.toOption]
    · exact broadcastAppend_originates _ hrole hout
  | handle now sender msg =>
    obtain ⟨hh, rfl⟩ := call_handle_ok h
    rcases handle_receives hh with ⟨_, _, rfl⟩ | ⟨_, _, f, hr, _, _, hterm, _⟩
    · simp
    · exact receive_originates (by rw [hterm]; exact le_max_right _ _) hr

/-- Where the match index of a leader after a call comes from: it is zero, it was there before,
or it is covered by the AppendResponse that was handled. -/
def MatchFrom (n n' : Node Disk) (c : Call) (p m : Nat) : Prop :=
  m = 0 ∨ (n.role = .leader ∧ n.term = n'.term ∧ n.matchIndex[p]? = some m) ∨
    ∃ now m', c = .handle now p (.appendResponse n'.term true m') ∧ m ≤ m'

/-- Every match index of `n'`, if it leads, is accounted for. -/
def Matches (n n' : Node Disk) (c : Call) : Prop :=
  n'.role = .leader → ∀ p m, n'.matchIndex[p]? = some m → n.MatchFrom n' c p m

theorem Matches.of_eq {c : Call} (hrole : n'.role = n.role) (hterm : n'.term = n.term)
    (hmatch : n'.matchIndex = n.matchIndex) : n.Matches n' c := by
  intro hlead p m hm
  rw [hrole] at hlead
  rw [hmatch] at hm
  exact .inr (.inl ⟨hlead, hterm.symm, hm⟩)

theorem Matches.of_ne {c : Call} (h : n'.role ≠ .leader) : n.Matches n' c :=
  fun hlead => absurd hlead h

theorem becomeLeader_matches {n₁ : Node Disk} {c : Call}
    (h : n₁.becomeLeader now = .ok (n', out)) : n.Matches n' c := by
  obtain ⟨_, _, rfl, _⟩ := becomeLeader_ok h
  intro _ p m hm
  simp only [inaugurated, List.getElem?_replicate] at hm
  split at hm
  · exact .inl (Option.some.inj hm).symm
  · cases hm

theorem onAppendResponse_matches {sender term matchIndex : Nat} {success : Bool}
    (h : n.onAppendResponse sender term success matchIndex = .ok (n', out)) :
    n.Matches n' (.handle now sender (.appendResponse term success matchIndex)) := by
  rcases onAppendResponse_ok h with ⟨_, rfl, _⟩ | ⟨hrole, hterm, known, hknown, hcase⟩
  · exact .of_eq rfl rfl rfl
  rcases hcase with ⟨rfl, hcommit, _⟩ | ⟨_, next, o, _, rfl, _⟩
  swap
  · exact .of_eq rfl rfl rfl
  obtain ⟨c, rfl, _⟩ := advanceCommit_ok hcommit
  intro _ p m hm
  by_cases hp : sender = p
  · subst hp
    have hlt := (List.getElem?_eq_some_iff.mp hknown).1
    simp only [acknowledged, List.getElem?_set_self hlt, Option.some.injEq] at hm
    rcases le_total known (min matchIndex n.lastIndex) with hle | hle
    · rw [max_eq_right hle] at hm
      subst hm
      subst hterm
      exact .inr (.inr ⟨now, matchIndex, rfl, min_le_left _ _⟩)
    · rw [max_eq_left hle] at hm
      subst hm
      exact .inr (.inl ⟨hrole, rfl, hknown⟩)
  · simp only [acknowledged, List.getElem?_set_ne hp] at hm
    exact .inr (.inl ⟨hrole, rfl, hm⟩)

theorem receive_matches {sender : Nat} {msg : Message}
    (h : n.receive now sender msg = .ok (n', out)) : n.Matches n' (.handle now sender msg) := by
  cases msg with
  | requestVote term lastLogIndex lastLogTerm =>
    rcases onRequestVote_ok h with ⟨rfl, _⟩ | ⟨_, _, _, _, deadline, rng, rfl⟩ <;>
      exact .of_eq rfl rfl rfl
  | voteResponse term granted =>
    rcases onVoteResponse_ok h with ⟨rfl, _⟩ | ⟨_, _, _, _, ⟨_, hl⟩ | ⟨rfl, _⟩⟩
    · exact .of_eq rfl rfl rfl
    · exact becomeLeader_matches hl
    · exact .of_eq rfl rfl rfl
  | appendEntries term prevIndex prevTerm entries leaderCommit =>
    rcases onAppendEntries_ok h with ⟨_, rfl, _⟩ | ⟨_, _, deadline, rng, hcase⟩
    · exact .of_eq rfl rfl rfl
    rcases hcase with ⟨_, rfl, _⟩ | ⟨hprev, _, m, hm, rfl, _⟩
    · exact .of_ne (by simp [following])
    · apply Matches.of_ne
      rw [committing_role, (mergeEntries_frame hprev hm).1]
      simp [following]
  | appendResponse term success matchIndex => exact onAppendResponse_matches h

theorem call_matches {c : Call} {answer : Option Nat} (h : n.call c = .ok (n', out, answer)) :
    n.Matches n' c := by
  cases c with
  | tick now =>
    obtain ⟨ht, rfl⟩ := call_tick_ok h
    rcases tick_ok ht with ⟨rfl, _⟩ | ⟨hrole, deadline, rfl, _⟩ | ⟨_, hs⟩
    · exact .of_eq rfl rfl rfl
    · exact .of_eq rfl rfl rfl
    · obtain ⟨deadline, rng, _, hcase⟩ := startElection_ok hs
      rcases hcase with ⟨_, hl⟩ | ⟨rfl, _⟩
      · exact becomeLeader_matches hl
      · exact .of_ne (by simp [standing])
  | propose now command =>
    obtain ⟨_, hp, _⟩ := call_propose_ok h
    rcases propose_ok hp with ⟨_, rfl, _⟩ | ⟨_, c, _, rfl, _⟩ <;> exact .of_eq rfl rfl rfl
  | handle now sender msg =>
    obtain ⟨hh, rfl⟩ := call_handle_ok h
    rcases handle_receives hh with ⟨_, rfl, _⟩ | ⟨_, _, f, hr, _, _, _, rfl | ⟨_, hrole⟩⟩
    · exact .of_eq rfl rfl rfl
    · exact receive_matches hr
    · intro hlead p m hm
      rcases receive_matches hr hlead p m hm with hzero | ⟨hf, _⟩ | hnew
      · exact .inl hzero
      · rw [hrole] at hf
        cases hf
      · exact .inr (.inr hnew)

end Node

/-! ## The moments of one run -/

/-- After `k` actions of the run `acts` the cluster is in the state `s`. -/
def System.At (size : Nat) (acts : List Action) (k : Nat) (s : System) : Prop :=
  k ≤ acts.length ∧ System.initial.run size (acts.take k) = some s

/-- Node `i` is live and leads `t`. -/
def System.Leads (s : System) (i : Nat) (n : Node Disk) (t : Nat) : Prop :=
  s.node i = some n ∧ n.role = .leader ∧ n.term = t

section

variable {size i k : Nat} {acts : List Action} {act : Action} {s s' : System} {n n' : Node Disk}

theorem System.At.append (h : System.At size acts k s) (more : List Action) :
    System.At size (acts ++ more) k s := by
  obtain ⟨hle, hrun⟩ := h
  refine ⟨hle.trans (by simp), ?_⟩
  rw [List.take_append_of_le_length hle]
  exact hrun

theorem System.At.last (h : System.initial.run size acts = some s) :
    System.At size acts acts.length s := by
  refine ⟨le_rfl, ?_⟩
  rw [List.take_length]
  exact h

/-- A moment of the first `k` actions is a moment of the whole run. -/
theorem System.At.of_take {j : Nat} (h : System.At size (acts.take k) j s) :
    j ≤ k ∧ System.At size acts j s := by
  obtain ⟨hle, hrun⟩ := h
  rw [List.length_take] at hle
  rw [List.take_take, min_eq_left (by omega)] at hrun
  exact ⟨by omega, by omega, hrun⟩

theorem run_concat_eq_some {last : System}
    (h : System.initial.run size (acts ++ [act]) = some last) :
    ∃ s, System.initial.run size acts = some s ∧ s.perform size act = some last := by
  obtain ⟨s, hs, hstep⟩ := Run.exec_append_eq_some.mp h
  rw [Run.exec_singleton] at hstep
  exact ⟨s, hs, hstep⟩

theorem run_concat (h : System.initial.run size acts = some s)
    (hstep : s.perform size act = some s') :
    System.initial.run size (acts ++ [act]) = some s' := by
  apply Run.exec_append_eq_some.mpr
  refine ⟨s, h, ?_⟩
  rw [Run.exec_singleton]
  exact hstep

/-- One run has one history of the ledger, with a state for each of its moments. -/
theorem run_histories {last : System} (h : System.initial.run size acts = some last) :
    ∃ A : Nat → History,
      (∀ k s, System.At size acts k s → SystemSim size (A k) s ∧ Holds (A k)) ∧
      ∀ j k, j ≤ k → k ≤ acts.length → Steps (quorums size) (A j) (A k) := by
  induction acts using List.reverseRecOn generalizing last with
  | nil =>
    refine ⟨fun _ => Ledger.initial, ?_, fun _ _ _ _ => .refl⟩
    rintro k s ⟨_, hrun⟩
    rw [List.take_nil] at hrun
    cases hrun
    exact ⟨.initial size, .initial⟩
  | append_singleton acts act ih =>
    obtain ⟨s, hs, hstep⟩ := run_concat_eq_some h
    obtain ⟨A, hA, hsteps⟩ := ih hs
    obtain ⟨hsim, hholds⟩ := hA _ _ (.last hs)
    obtain ⟨a', hper⟩ := perform_simulates hsim hstep
    refine ⟨fun k => if k ≤ acts.length then A k else a', ?_, ?_⟩
    · rintro k s' ⟨hle, hrun⟩
      dsimp only
      split
      · next hk =>
        rw [List.take_append_of_le_length hk] at hrun
        exact hA k s' ⟨hk, hrun⟩
      · next hk =>
        rw [List.take_of_length_le (by simp at hle ⊢; omega), h] at hrun
        cases hrun
        exact ⟨hper.sim, hholds.steps hsim.inv hper.steps⟩
    · intro j k hjk hk
      dsimp only
      split
      · next hj =>
        split
        · next hk' => exact hsteps j k hjk hk'
        · exact (hsteps j _ hj le_rfl).trans hper.steps
      · next hj =>
        rw [if_neg (by omega)]
        exact .refl

/-! ## Where acknowledgements come from -/

/-- At some moment of the run the leader of `t` had a log that reached `m`. -/
def Reached (size : Nat) (acts : List Action) (t m : Nat) : Prop :=
  ∃ j s i n, System.At size acts j s ∧ s.Leads i n t ∧ m ≤ n.log.length

theorem Reached.append {t m : Nat} (h : Reached size acts t m) (more : List Action) :
    Reached size (acts ++ more) t m := by
  obtain ⟨j, s, i, n, hat, hlead⟩ := h
  exact ⟨j, s, i, n, hat.append more, hlead⟩

/-- What was sent up to the end of the run is backed by the logs of the leaders, and the match
indices of the leaders by what was sent. -/
structure Backed (size : Nat) (acts : List Action) (s : System) : Prop where
  entries : ∀ i p t prevIndex prevTerm entries leaderCommit,
    ⟨i, p, .appendEntries t prevIndex prevTerm entries leaderCommit⟩ ∈ s.sent →
      Reached size acts t (prevIndex + entries.length)
  acknowledged : ∀ p i t m, ⟨p, i, .appendResponse t true m⟩ ∈ s.sent → Reached size acts t m
  matched : ∀ i n p m, s.node i = some n → n.role = .leader → n.matchIndex[p]? = some m →
    0 < m → ∃ m', m ≤ m' ∧ ⟨p, i, .appendResponse n.term true m'⟩ ∈ s.sent

theorem Backed.initial : Backed size [] .initial where
  entries i p t prevIndex prevTerm entries leaderCommit h := by cases h
  acknowledged p i t m h := by cases h
  matched i n p m h := by cases h

/-- An action that sends nothing and leaves no node with a new match index. -/
theorem Backed.silent (h : Backed size acts s) (hsent : s'.sent = s.sent)
    (hnode : ∀ j m, s'.node j = some m → m.role = .leader →
      ∃ m₀, s.node j = some m₀ ∧ m₀.role = .leader ∧ m₀.term = m.term ∧
        m₀.matchIndex = m.matchIndex) : Backed size (acts ++ [act]) s' where
  entries i p t prevIndex prevTerm entries leaderCommit hmem := by
    rw [hsent] at hmem
    exact (h.entries _ _ _ _ _ _ _ hmem).append _
  acknowledged p i t m hmem := by
    rw [hsent] at hmem
    exact (h.acknowledged _ _ _ _ hmem).append _
  matched i n p m hn hrole hm hpos := by
    obtain ⟨n₀, hn₀, hrole₀, hterm₀, hmatch₀⟩ := hnode i n hn hrole
    rw [← hmatch₀] at hm
    obtain ⟨m', hle, hmem⟩ := h.matched i n₀ p m hn₀ hrole₀ hm hpos
    rw [hterm₀] at hmem
    rw [hsent]
    exact ⟨m', hle, hmem⟩

theorem Backed.called (h : Backed size acts s) {c : Call} {delivered : List (Nat × Entry)}
    {out : List Outgoing} {answer : Option Nat} (hslot : s.slots i = .up n delivered)
    (hdeliv : s.Deliverable i c) (hcall : n.call c = .ok (n', out, answer))
    (hslots : s'.slots = Function.update s.slots i (.up n' delivered))
    (hsent : s'.sent = s.sent ++ out.map fun o => ⟨i, o.recipient, o.message⟩)
    (hrun : System.initial.run size (acts ++ [act]) = some s') :
    Backed size (acts ++ [act]) s' := by
  have hnode' : s'.node i = some n' := System.node_eq_some.mpr
    ⟨delivered, by rw [hslots, Function.update_self]⟩
  have horigin := Node.call_originates hcall
  -- a message of the run up to here, or one of the call's own
  have hcases : ∀ e ∈ s'.sent, e ∈ s.sent ∨ e.sender = i ∧ n'.Originates c e.message := by
    intro e he
    rw [hsent] at he
    rcases List.mem_append.mp he with he | he
    · exact .inl he
    · obtain ⟨o, ho, rfl⟩ := List.mem_map.mp he
      exact .inr ⟨rfl, horigin o ho⟩
  refine ⟨?_, ?_, ?_⟩
  · intro j p t prevIndex prevTerm entries leaderCommit hmem
    rcases hcases _ hmem with hold | ⟨_, hrole, hterm, hlen⟩
    · exact (h.entries _ _ _ _ _ _ _ hold).append _
    · exact ⟨_, s', i, n', .last hrun, ⟨hnode', hrole, hterm⟩, hlen⟩
  · intro p j t m hmem
    rcases hcases _ hmem with hold | ⟨_, now, sender, prevIndex, prevTerm, entries, lc, rfl, rfl⟩
    · exact (h.acknowledged _ _ _ _ hold).append _
    · exact (h.entries _ _ _ _ _ _ _ hdeliv).append _
  · intro j m p k hm hrole hk hpos
    have hsub : ∀ e ∈ s.sent, e ∈ s'.sent := by
      intro e he
      rw [hsent]
      exact List.mem_append_left _ he
    rcases System.node_of_update hslots hm with ⟨rfl, _, hup⟩ | ⟨_, hold⟩
    · cases hup
      rcases Node.call_matches hcall hrole p k hk with hzero | ⟨hrole₀, hterm₀, hk₀⟩ |
        ⟨now, m', rfl, hle⟩
      · omega
      · obtain ⟨m', hle, hmem⟩ := h.matched j n p k (System.node_eq_some.mpr ⟨_, hslot⟩) hrole₀
          hk₀ hpos
        rw [hterm₀] at hmem
        exact ⟨m', hle, hsub _ hmem⟩
      · exact ⟨m', hle, hsub _ hdeliv⟩
    · obtain ⟨m', hle, hmem⟩ := h.matched j m p k hold hrole hk hpos
      exact ⟨m', hle, hsub _ hmem⟩

theorem run_backed {last : System} (h : System.initial.run size acts = some last) :
    Backed size acts last := by
  induction acts using List.reverseRecOn generalizing last with
  | nil =>
    cases h
    exact .initial
  | append_singleton acts act ih =>
    obtain ⟨s, hs, hstep⟩ := run_concat_eq_some h
    have hback := ih hs
    have hchanged := perform_changed hstep
    cases hchanged with
    | called i c n n' delivered out answer hslot hdeliv hcall hslots hsent =>
      exact hback.called hslot hdeliv hcall hslots hsent h
    | applied i n _ _ hslot hslots hsent =>
      refine hback.silent hsent fun j m hm hrole => ?_
      rcases System.node_of_update hslots hm with ⟨rfl, _, hup⟩ | ⟨_, hold⟩
      · cases hup
        exact ⟨n, System.node_eq_some.mpr ⟨_, hslot⟩, hrole, rfl, rfl⟩
      · exact ⟨m, hold, hrole, rfl, rfl⟩
    | started i cfg d now n hnew hslots hsent =>
      refine hback.silent hsent fun j m hm hrole => ?_
      rcases System.node_of_update hslots hm with ⟨rfl, _, hup⟩ | ⟨_, hold⟩
      · cases hup
        obtain ⟨_, deadline, rng, rfl⟩ := Node.new_ok hnew
        cases hrole
      · exact ⟨m, hold, hrole, rfl, rfl⟩
    | stopped i d hslots hsent =>
      refine hback.silent hsent fun j m hm hrole => ?_
      rcases System.node_of_update hslots hm with ⟨rfl, _, hup⟩ | ⟨_, hold⟩
      · cases hup
      · exact ⟨m, hold, hrole, rfl, rfl⟩

/-! ## The promise -/

/-- Two reigns of one epoch at two moments of a history: one ledger is a prefix of the other. -/
theorem agree_of_reigns {a a' : History} {t m : Nat} {l : List Entry} {r r' : Reign Nat Entry}
    (hinv : Inv (quorums size) a) (hinv' : Inv (quorums size) a')
    (hsteps : Steps (quorums size) a a' ∨ Steps (quorums size) a' a)
    (hr : a.reign t = some r) (hr' : a'.reign t = some r') (hag : AgreeUpTo m l r.ledger) :
    AgreeUpTo (min m r'.ledger.length) l r'.ledger := by
  rcases hsteps with hs | hs
  · obtain ⟨r'', hr'', _, _, hp⟩ := (hs.extends hinv).reign hr
    rw [hr'] at hr''
    cases hr''
    exact (hag.prefix_right hp).mono (min_le_left _ _)
  · obtain ⟨r'', hr'', _, _, hp⟩ := (hs.extends hinv').reign hr'
    rw [hr] at hr''
    cases hr''
    exact (hag.mono (min_le_left _ _)).of_prefix_right hp (min_le_right _ _)

/-- Once a node has returned a successful AppendResponse for index `m` of term `t`, the leader
of `t` has had a log that reaches `m`, and whenever the node's term is `t` its storage agrees up
to `m` with every log that the leader of `t` has in this run. Every match index of a leader is
covered by a successful AppendResponse to it. -/
theorem acknowledgement_lasts {last : System} (h : System.initial.run size acts = some last) :
    (∀ k s k' s' p i t m, k ≤ k' → System.At size acts k s → System.At size acts k' s' →
      ⟨p, i, .appendResponse t true m⟩ ∈ s.sent → (s'.slots p).disk.current.term = t →
        (∃ j s₀ l n, j ≤ k ∧ System.At size acts j s₀ ∧ s₀.Leads l n t ∧ m ≤ n.log.length) ∧
        ∀ j s₀ l n, System.At size acts j s₀ → s₀.Leads l n t →
          AgreeUpTo (min m n.log.length) (s'.slots p).disk.current.log n.log) ∧
    ∀ k s i n p m, System.At size acts k s → s.node i = some n → n.role = .leader →
      n.matchIndex[p]? = some m → 0 < m →
        ∃ m', m ≤ m' ∧ ⟨p, i, .appendResponse n.term true m'⟩ ∈ s.sent := by
  obtain ⟨A, hA, hsteps⟩ := run_histories h
  refine ⟨fun k s k' s' p i t m hkk' hk hk' hsent hterm => ⟨?_, ?_⟩, ?_⟩
  · obtain ⟨j, s₀, l, n, hat, hlead, hlen⟩ := (run_backed hk.2).acknowledged _ _ _ _ hsent
    obtain ⟨hjk, hat⟩ := hat.of_take
    exact ⟨j, s₀, l, n, hjk, hat, hlead, hlen⟩
  · intro j s₀ l n hj ⟨hn, hrole, hnt⟩
    obtain ⟨hsim, _⟩ := hA k s hk
    obtain ⟨hsim', hholds⟩ := hA k' s' hk'
    obtain ⟨hsim₀, _⟩ := hA j s₀ hj
    have hdisk := (hsim'.slot p).disk
    have hext := (hsteps k k' hkk' hk'.1).extends hsim.inv
    have hack : m ≤ (A k').ack p ((A k').epoch p) := by
      rw [hdisk.epoch, hterm]
      exact le_trans (hsim.sent _ hsent) (hext.ack p t)
    rcases Nat.eq_zero_or_pos m with rfl | hpos
    · rw [Nat.zero_min]
      exact .zero _ _
    obtain ⟨r, hr, hag⟩ := hholds p m hpos hack
    rw [hdisk.epoch, hterm] at hr
    rw [hdisk.log] at hag
    obtain ⟨r₀, hr₀, _, hledger, _⟩ := (hsim₀.node hn).leader hrole
    rw [hnt] at hr₀
    rw [← hledger]
    refine agree_of_reigns hsim'.inv hsim₀.inv ?_ hr hr₀ hag
    rcases le_total j k' with hle | hle
    · exact .inr (hsteps j k' hle hk'.1)
    · exact .inl (hsteps k' j hle hj.1)
  · intro k s i n p m hk hn hrole hm hpos
    exact (run_backed hk.2).matched i n p m hn hrole hm hpos

/-- Node 1 crashes after it has acknowledged the no-op, and starts again. -/
def System.relaunch : List Action := [.crash 1, .restart 1 (System.eager 1) 4]

def System.relaunched : System := (reigned.run 3 relaunch).get (by decide +kernel)

def System.unmoved : Node Disk := (relaunched.node 0).get (by decide +kernel)

theorem acknowledgement_lasts_relaunched :
    (System.relaunched.slots 1).disk.current.term = 1 ∧
      (∃ j s₀ l n, j ≤ 9 ∧ System.At 3 (System.opening ++ System.reigning ++ System.relaunch) j s₀ ∧
        s₀.Leads l n 1 ∧ 1 ≤ n.log.length) ∧
      AgreeUpTo 1 (System.relaunched.slots 1).disk.current.log System.unmoved.log ∧
      ∃ m', 1 ≤ m' ∧
        ⟨1, 0, .appendResponse System.unmoved.term true m'⟩ ∈ System.relaunched.sent := by
  have hrun : System.initial.run 3 (System.opening ++ System.reigning ++ System.relaunch) =
      some System.relaunched :=
    Run.exec_append_eq_some.mpr ⟨_, System.run_reigned, (Option.some_get _).symm⟩
  have hat : System.At 3 (System.opening ++ System.reigning ++ System.relaunch) 9
      System.reigned := ⟨by decide, System.run_reigned⟩
  have hend : System.At 3 (System.opening ++ System.reigning ++ System.relaunch) 11
      System.relaunched := .last hrun
  have hlead : System.relaunched.Leads 0 System.unmoved 1 :=
    ⟨(Option.some_get _).symm, by decide +kernel, by decide +kernel⟩
  obtain ⟨hheld, hagree⟩ := (acknowledgement_lasts hrun).1 9 System.reigned 11 System.relaunched
    1 0 1 1 (by decide) hat hend (by decide +kernel) (by decide +kernel)
  refine ⟨by decide +kernel, hheld, ?_, (acknowledgement_lasts hrun).2 11 System.relaunched 0 _ 1 1
    hend hlead.1 (by decide +kernel) (by decide +kernel) Nat.one_pos⟩
  have hmin : min 1 System.unmoved.log.length = 1 := by decide +kernel
  have hag := hagree 11 System.relaunched 0 System.unmoved hend hlead
  rwa [hmin] at hag

end

end Landsraad
