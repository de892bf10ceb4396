import Landsraad.Raft.Persistence

/-!
# A leader's bookkeeping

For every node of the cluster a leader keeps the index up to which the logs are known to agree
and the next index to send. Whatever replies come in, true, stale or made up, the first stays
below the second and the second at most one past the log, so that every AppendEntries is a
slice of the log. As in the previous module, the messages that a node handles are arbitrary.
-/

namespace Landsraad

open Checked

namespace Node

variable {n n' : Node Disk} {now : Nat} {out : List Outgoing}

/-- Both tables cover the cluster, and at a leader their entries are in range. -/
structure Ranged (n : Node Disk) : Prop where
  next_length : n.nextIndex.length = n.cfg.clusterSize
  match_length : n.matchIndex.length = n.cfg.clusterSize
  leader : n.role = .leader → ∀ (p m x : Nat), n.matchIndex[p]? = some m →
    n.nextIndex[p]? = some x → m < x ∧ x ≤ n.lastIndex + 1

/-- An AppendEntries is sent by a leader to a peer, follows an index of the leader's log and
carries the entries there, as many as a batch holds. -/
def Batched (n : Node Disk) (o : Outgoing) : Prop :=
  match o.message with
  | .appendEntries term prevIndex prevTerm entries _ =>
    n.role = .leader ∧ o.recipient ∈ n.peers ∧ term = n.term ∧ prevIndex ≤ n.lastIndex ∧
      TermAt n.log prevIndex prevTerm ∧
      entries = (n.log.drop prevIndex).take (min n.cfg.maxBatch (n.lastIndex - prevIndex))
  | _ => True

/-- No known match of `n` is lower in `n'`. -/
def MatchGrows (n n' : Node Disk) : Prop :=
  ∀ (p m : Nat), n.matchIndex[p]? = some m → ∃ m', n'.matchIndex[p]? = some m' ∧ m ≤ m'

/-- A call leads from `n` to `n'` and returns `out`: a leader stays the leader of its term, with
known matches that grow, or it moves on to a later term. -/
structure Booked (n n' : Node Disk) (out : List Outgoing) : Prop where
  ranged : n'.Ranged
  batched : ∀ o ∈ out, n'.Batched o
  reign : n.term < n'.term ∨
    (n'.term = n.term ∧ (n.role = .leader → n'.role = .leader ∧ n.MatchGrows n'))

theorem MatchGrows.of_eq (h : n'.matchIndex = n.matchIndex) : n.MatchGrows n' :=
  fun _ m hm => ⟨m, by rw [h, hm], le_rfl⟩

theorem MatchGrows.trans {n'' : Node Disk} (h : n.MatchGrows n') (h' : n'.MatchGrows n'') :
    n.MatchGrows n'' := by
  intro p m hm
  obtain ⟨m', hm', hle⟩ := h p m hm
  obtain ⟨m'', hm'', hle'⟩ := h' p m' hm'
  exact ⟨m'', hm'', hle.trans hle'⟩

/-- The tables of a node that does not lead are not read. -/
theorem Ranged.of_ne (h : n.Ranged) (hrole : n'.role ≠ .leader) (hcfg : n'.cfg = n.cfg)
    (hnext : n'.nextIndex = n.nextIndex) (hmatch : n'.matchIndex = n.matchIndex) :
    n'.Ranged where
  next_length := by rw [hnext, hcfg, h.next_length]
  match_length := by rw [hmatch, hcfg, h.match_length]
  leader hl := absurd hl hrole

/-- The log may grow under the tables. -/
theorem Ranged.of_isPrefix (h : n.Ranged) (hrole : n'.role = n.role) (hcfg : n'.cfg = n.cfg)
    (hnext : n'.nextIndex = n.nextIndex) (hmatch : n'.matchIndex = n.matchIndex)
    (hlog : n.log <+: n'.log) : n'.Ranged where
  next_length := by rw [hnext, hcfg, h.next_length]
  match_length := by rw [hmatch, hcfg, h.match_length]
  leader := by
    rw [hrole, hnext, hmatch]
    intro hl p m x hm hx
    have hlen : n.lastIndex ≤ n'.lastIndex := hlog.length_le
    obtain ⟨hlt, hle⟩ := h.leader hl p m x hm hx
    exact ⟨hlt, by omega⟩

theorem Booked.silent (h : n.Ranged) : Booked n n [] :=
  ⟨h, by simp, .inr ⟨rfl, fun hl => ⟨hl, .of_eq rfl⟩⟩⟩

theorem Booked.same (h : n.Ranged) (hout : ∀ o ∈ out, n.Batched o) : Booked n n out :=
  ⟨h, hout, .inr ⟨rfl, fun hl => ⟨hl, .of_eq rfl⟩⟩⟩

/-- What happened to a node in a later term is what happened to it. -/
theorem Booked.of_later {f : Node Disk} (h : Booked f n' out) (hlt : n.term < f.term) :
    Booked n n' out := by
  refine ⟨h.ranged, h.batched, .inl ?_⟩
  rcases h.reign with hgt | ⟨heq, _⟩
  · exact hlt.trans hgt
  · exact hlt.trans_eq heq.symm

theorem appendFor_batched {p : Nat} {o : Outgoing} (hrole : n.role = .leader) (hp : p ∈ n.peers)
    (h : n.appendFor p = .ok o) : n.Batched o := by
  obtain ⟨prevIndex, prevTerm, entries, ⟨hle, hterm, hslice⟩, rfl, _, hlen⟩ := appendFor_ok h
  refine ⟨hrole, hp, rfl, hle, hterm, ?_⟩
  rw [List.prefix_iff_eq_take] at hslice
  rw [hslice, hlen]
  rfl

theorem broadcastAppend_batched (hrole : n.role = .leader) (h : n.broadcastAppend = .ok out) :
    ∀ o ∈ out, n.Batched o := by
  intro o ho
  obtain ⟨hp, hfor⟩ := broadcastAppend_sends h ho
  exact appendFor_batched hrole hp hfor

theorem inaugurated_ranged (n : Node Disk) : n.inaugurated.Ranged where
  next_length := by simp [inaugurated]
  match_length := by simp [inaugurated]
  leader := by
    intro _ p m x hm hx
    simp only [inaugurated, List.getElem?_replicate, Option.ite_none_right_eq_some,
      Option.some.injEq] at hm hx
    obtain ⟨_, rfl⟩ := hm
    obtain ⟨_, rfl⟩ := hx
    simp [inaugurated, lastIndex]

theorem becomeLeader_booked (hrole : n.role ≠ .leader) (h : n.becomeLeader now = .ok (n', out)) :
    Booked n n' out := by
  obtain ⟨c, deadline, rfl, _, hout, _⟩ := becomeLeader_ok h
  exact ⟨n.inaugurated_ranged.of_isPrefix rfl rfl rfl rfl List.prefix_rfl,
    broadcastAppend_batched rfl hout, .inr ⟨rfl, fun hl => absurd hl hrole⟩⟩

theorem startElection_booked (hn : n.Ranged) (h : n.startElection now = .ok (n', out)) :
    Booked n n' out := by
  obtain ⟨deadline, rng, _, hcase⟩ := startElection_ok h
  rcases hcase with ⟨_, hl⟩ | ⟨rfl, t, _, rfl⟩
  · exact (becomeLeader_booked (by simp [standing]) hl).of_later (Nat.lt_succ_self n.term)
  · refine ⟨hn.of_ne (by simp [standing]) rfl rfl rfl, ?_, .inl (Nat.lt_succ_self n.term)⟩
    intro o ho
    obtain ⟨p, _, rfl⟩ := List.mem_map.mp ho
    trivial

theorem tick_booked (hn : n.Ranged) (h : n.tick now = .ok (n', out)) : Booked n n' out := by
  rcases tick_ok h with ⟨rfl, rfl⟩ | ⟨hrole, deadline, rfl, hout⟩ | ⟨_, hs⟩
  · exact .silent hn
  · exact ⟨hn.of_isPrefix rfl rfl rfl rfl List.prefix_rfl, broadcastAppend_batched hrole hout,
      .inr ⟨rfl, fun hl => ⟨hl, .of_eq rfl⟩⟩⟩
  · exact startElection_booked hn hs

theorem propose_booked {command : List UInt8} {answer : Except ProposeError (Nat × List Outgoing)}
    (hn : n.Ranged) (h : n.propose now command = .ok (n', answer)) :
    Booked n n' ((answer.toOption.map Prod.snd).getD []) := by
  rcases propose_ok h with ⟨_, rfl, rfl⟩ | ⟨hrole, c, out, rfl, _, rfl, hout, _⟩
  · exact .silent hn
  · exact ⟨hn.of_isPrefix rfl rfl rfl rfl (List.prefix_append _ _),
      broadcastAppend_batched hrole hout, .inr ⟨rfl, fun hl => ⟨hl, .of_eq rfl⟩⟩⟩

/-! ## Replies -/

/-- The tables stay in range when a reply moves the entries of one peer within it. -/
theorem Ranged.set (h : n.Ranged) {p m x : Nat} (hrole : n'.role = n.role)
    (hcfg : n'.cfg = n.cfg) (hlog : n'.log = n.log)
    (hmatch : n'.matchIndex = n.matchIndex.set p m) (hnext : n'.nextIndex = n.nextIndex.set p x)
    (hmx : m < x) (hx : x ≤ n.lastIndex + 1) : n'.Ranged where
  next_length := by rw [hnext, hcfg, List.length_set, h.next_length]
  match_length := by rw [hmatch, hcfg, List.length_set, h.match_length]
  leader := by
    intro hl q m' x' hm' hx'
    have hlast : n'.lastIndex = n.lastIndex := congrArg List.length hlog
    rw [hlast]
    rw [hmatch, List.getElem?_set] at hm'
    rw [hnext, List.getElem?_set] at hx'
    by_cases hq : p = q
    · rw [if_pos hq] at hm' hx'
      split at hm' <;> cases hm'
      split at hx' <;> cases hx'
      exact ⟨hmx, hx⟩
    · rw [if_neg hq] at hm' hx'
      exact h.leader (hrole.symm.trans hl) q m' x' hm' hx'

/-- A known match can only be replaced by a higher one. -/
theorem MatchGrows.set {p m m' : Nat} (hm : n.matchIndex[p]? = some m) (hle : m ≤ m')
    (hmatch : n'.matchIndex = n.matchIndex.set p m') : n.MatchGrows n' := by
  intro q k hk
  rw [hmatch, List.getElem?_set]
  by_cases hq : p = q
  · subst hq
    have hlt := (List.getElem?_eq_some_iff.mp hm).1
    rw [hm] at hk
    cases hk
    rw [if_pos rfl, if_pos hlt]
    exact ⟨m', rfl, hle⟩
  · rw [if_neg hq]
    exact ⟨k, hk, le_rfl⟩

/-- The known match of a leader lies within its log. -/
theorem Ranged.known (hn : n.Ranged) (hrole : n.role = .leader) {p m : Nat}
    (hm : n.matchIndex[p]? = some m) :
    ∃ x, n.nextIndex[p]? = some x ∧ m < x ∧ x ≤ n.lastIndex + 1 := by
  have hlt : p < n.nextIndex.length := by
    rw [hn.next_length, ← hn.match_length]
    exact (List.getElem?_eq_some_iff.mp hm).1
  exact ⟨_, List.getElem?_eq_getElem hlt, hn.leader hrole p m _ hm (List.getElem?_eq_getElem hlt)⟩

/-- The two tables of a leader at a peer. -/
theorem Ranged.peer (hn : n.Ranged) (hrole : n.role = .leader) {p : Nat} (hp : p ∈ n.peers) :
    ∃ m x : Nat, n.matchIndex[p]? = some m ∧ n.nextIndex[p]? = some x ∧ m < x ∧
      x ≤ n.lastIndex + 1 := by
  have hlt : p < n.matchIndex.length := by
    rw [hn.match_length]
    exact (mem_peers.mp hp).1
  obtain ⟨x, hx⟩ := hn.known hrole (List.getElem?_eq_getElem hlt)
  exact ⟨_, x, List.getElem?_eq_getElem hlt, hx⟩

theorem onAppendResponse_booked {sender term matchIndex : Nat} {success : Bool} (hn : n.Ranged)
    (hp : sender ∈ n.peers)
    (h : n.onAppendResponse sender term success matchIndex = .ok (n', out)) :
    Booked n n' out := by
  rcases onAppendResponse_ok h with ⟨_, rfl, rfl⟩ | ⟨hrole, _, known, hknown, hcase⟩
  · exact .silent hn
  obtain ⟨x, hx, hlt, hle⟩ := hn.known hrole hknown
  rcases hcase with ⟨_, hcommit, hout⟩ | ⟨_, next, o, hnext, rfl, ho, rfl⟩
  · -- the acknowledged index is clamped to the log
    obtain ⟨c, rfl, _⟩ := advanceCommit_ok hcommit
    refine ⟨hn.set rfl rfl rfl rfl rfl (Nat.lt_succ_self _) (by omega), ?_,
      .inr ⟨rfl, fun _ => ⟨hrole, .set hknown (le_max_left _ _) rfl⟩⟩⟩
    rcases hout with ⟨_, rfl⟩ | ⟨_, o, ho, rfl⟩
    · simp
    · simp only [List.mem_singleton, forall_eq]
      exact appendFor_batched hrole hp ho
  · -- the hint moves the next index down, but not to the known match
    rw [hx] at hnext
    cases hnext
    have hmatch : n.matchIndex = n.matchIndex.set sender known := by
      obtain ⟨hlt', hget⟩ := List.getElem?_eq_some_iff.mp hknown
      rw [← hget, List.set_getElem_self]
    refine ⟨hn.set rfl rfl rfl hmatch rfl (by omega) (by omega), ?_,
      .inr ⟨rfl, fun _ => ⟨hrole, .of_eq rfl⟩⟩⟩
    simp only [List.mem_singleton, forall_eq]
    exact appendFor_batched hrole hp ho

theorem mergeEntries_tables {prevIndex : Nat} {entries : List Entry}
    (hprev : prevIndex ≤ n.lastIndex) (h : n.mergeEntries prevIndex 0 entries = .ok n') :
    n'.nextIndex = n.nextIndex ∧ n'.matchIndex = n.matchIndex := by
  rcases mergeEntries_ok (k := 0) hprev h with ⟨rfl, _⟩ | ⟨j, e, _, _, _, _, rfl⟩
  · exact ⟨rfl, rfl⟩
  · unfold spliced
    split <;> exact ⟨rfl, rfl⟩

theorem onAppendEntries_booked {sender term prevIndex prevTerm leaderCommit : Nat}
    {entries : List Entry} (hn : n.Ranged)
    (h : n.onAppendEntries now sender term prevIndex prevTerm entries leaderCommit =
      .ok (n', out)) : Booked n n' out := by
  rcases onAppendEntries_ok h with ⟨_, rfl, rfl⟩ | ⟨_, hrole, deadline, rng, hcase⟩
  · exact .same hn (by simp [Batched])
  rcases hcase with ⟨_, rfl, rfl⟩ | ⟨hprev, _, m, hm, rfl, rfl⟩
  · exact ⟨hn.of_ne (by simp [following]) rfl rfl rfl, by simp [Batched],
      .inr ⟨rfl, fun hl => absurd hl hrole⟩⟩
  · obtain ⟨hr, ht⟩ := mergeEntries_frame hprev hm
    obtain ⟨hnext, hmatch⟩ := mergeEntries_tables hprev hm
    have hfollows : (m.committing leaderCommit (prevIndex + entries.length)).role ≠ .leader := by
      rw [committing_role, hr]
      simp [following]
    refine ⟨hn.of_ne hfollows ?_ ?_ ?_, by simp [Batched], .inr ⟨?_, fun hl => absurd hl hrole⟩⟩
    · rw [committing_cfg, mergeEntries_cfg hprev hm]
      rfl
    · unfold committing
      split <;> exact hnext
    · unfold committing
      split <;> exact hmatch
    · rw [committing_term, ht]
      rfl

theorem receive_booked {sender : Nat} {msg : Message} (hn : n.Ranged) (hp : sender ∈ n.peers)
    (h : n.receive now sender msg = .ok (n', out)) : Booked n n' out := by
  cases msg with
  | requestVote term lastLogIndex lastLogTerm =>
    rcases onRequestVote_ok h with ⟨rfl, rfl⟩ | ⟨_, _, _, rfl, deadline, rng, rfl⟩
    · exact .same hn (by simp [Batched])
    · exact ⟨hn.of_isPrefix rfl rfl rfl rfl List.prefix_rfl, by simp [Batched],
        .inr ⟨rfl, fun hl => ⟨hl, .of_eq rfl⟩⟩⟩
  | voteResponse term granted =>
    rcases onVoteResponse_ok h with ⟨rfl, rfl⟩ | ⟨hrole, _, _, _, ⟨_, hl⟩ | ⟨rfl, rfl⟩⟩
    · exact .silent hn
    · have hb := becomeLeader_booked (by simp [hrole]) hl
      exact ⟨hb.ranged, hb.batched, hb.reign.imp id fun ⟨ht, _⟩ => ⟨ht, by simp [hrole]⟩⟩
    · exact ⟨hn.of_ne (by simp [hrole]) rfl rfl rfl, by simp,
        .inr ⟨rfl, fun hl => ⟨hl, .of_eq rfl⟩⟩⟩
  | appendEntries term prevIndex prevTerm entries leaderCommit => exact onAppendEntries_booked hn h
  | appendResponse term success matchIndex => exact onAppendResponse_booked hn hp h

theorem stepDown_ranged {f : Node Disk} {term : Nat} (hn : n.Ranged)
    (hf : n.stepDown now term = .ok f) : f.Ranged := by
  obtain ⟨deadline, rng, rfl⟩ := stepDown_ok hf
  exact hn.of_ne (by simp) rfl rfl rfl

theorem handle_booked {sender : Nat} {msg : Message} (hn : n.Ranged)
    (h : n.handle now sender msg = .ok (n', out)) : Booked n n' out := by
  rcases handle_ok h with ⟨_, rfl, rfl⟩ | ⟨hne, hlt, ⟨_, hr⟩ | ⟨hgt, f, hf, hr⟩⟩
  · exact .silent hn
  · exact receive_booked hn (mem_peers.mpr ⟨hlt, hne⟩) hr
  · have hfn := stepDown_ranged hn hf
    obtain ⟨deadline, rng, rfl⟩ := stepDown_ok hf
    exact (receive_booked hfn (mem_peers.mpr ⟨hlt, hne⟩) hr).of_later hgt

/-! ## Calls -/

theorem call_booked {c : Call} {answer : Option Nat} (hn : n.Ranged)
    (h : n.call c = .ok (n', out, answer)) : Booked n n' out := by
  cases c with
  | tick now =>
    obtain ⟨ht, rfl⟩ := call_tick_ok h
    exact tick_booked hn ht
  | propose now command =>
    obtain ⟨r, hp, rfl, _⟩ := call_propose_ok h
    exact propose_booked hn hp
  | handle now sender msg =>
    obtain ⟨hh, rfl⟩ := call_handle_ok h
    exact handle_booked hn hh

theorem fresh_ranged (cfg : Config) (d : Disk) (deadline : Nat) (rng : UInt64) :
    (fresh cfg d deadline rng).Ranged where
  next_length := by simp [fresh]
  match_length := by simp [fresh]
  leader hl := by simp [fresh] at hl

theorem callAll_booked {cs : List Call} (hn : n.Ranged) (h : n.callAll cs = .ok n') :
    Booked n n' [] := by
  induction cs generalizing n with
  | nil =>
    cases h
    exact .silent hn
  | cons c cs ih =>
    obtain ⟨⟨n₁, out, answer⟩, hc, h⟩ := bind_eq_ok.mp h
    have hb := call_booked hn hc
    have hrest := ih hb.ranged h
    rcases hb.reign with hlt | ⟨heq, hkeep⟩
    · exact hrest.of_later hlt
    · refine ⟨hrest.ranged, by simp, ?_⟩
      rw [← heq]
      refine hrest.reign.imp id fun ⟨heq', hkeep'⟩ => ⟨heq', fun hl => ?_⟩
      obtain ⟨hl', hgrows⟩ := hkeep hl
      obtain ⟨hl'', hgrows'⟩ := hkeep' hl'
      exact ⟨hl'', hgrows.trans hgrows'⟩

/-- Of every state that calls reach, from any storage and with any messages: at a leader every
peer's known match is below its next index, which is at most one past the log; a known match
does not fall as long as the node leads its term; and an AppendEntries that a call returns is
sent by a leader to a peer and is the slice of its log that follows the previous index. -/
theorem leader_bookkeeping {cfg : Config} {d : Disk} {cs : List Call} {start : Node Disk}
    (hnew : new cfg d now = .ok start) (hcs : start.callAll cs = .ok n) :
    (n.role = .leader → ∀ p ∈ n.peers, ∃ m x : Nat, n.matchIndex[p]? = some m ∧
      n.nextIndex[p]? = some x ∧ m < x ∧ x ≤ n.lastIndex + 1) ∧
    (∀ cs' n', n.callAll cs' = .ok n' → n.role = .leader → n'.term = n.term →
      n'.role = .leader ∧ n.MatchGrows n') ∧
    ∀ c n' out answer, n.call c = .ok (n', out, answer) → ∀ o ∈ out, n'.Batched o := by
  obtain ⟨_, deadline, rng, rfl⟩ := new_ok hnew
  have hn : n.Ranged := (callAll_booked (fresh_ranged cfg d deadline rng) hcs).ranged
  refine ⟨fun hrole p hp => hn.peer hrole hp, ?_,
    fun c n' out answer hc => (call_booked hn hc).batched⟩
  intro cs' n' hcs' hrole hterm
  rcases (callAll_booked hn hcs').reign with hlt | ⟨_, hkeep⟩
  · exact absurd hterm hlt.ne'
  · exact hkeep hrole

/-- A leader with an entry that no peer has acknowledged yet. -/
def proposing : Node Disk :=
  (launched.callAll [.tick 1, .handle 1 1 (.voteResponse 1 true),
    .propose 1 [7]]).toOption.get (by decide +kernel)

/-- It learns that node 1 has its no-op and sends it the entry. -/
theorem leader_bookkeeping_proposing :
    (∃ m x : Nat, proposing.matchIndex[1]? = some m ∧ proposing.nextIndex[1]? = some x ∧ m < x ∧
        x ≤ proposing.lastIndex + 1) ∧
      ∃ n' out answer,
        proposing.call (.handle 1 1 (.appendResponse 1 true 1)) = .ok (n', out, answer) ∧
        proposing.MatchGrows n' ∧ out ≠ [] ∧ ∀ o ∈ out, n'.Batched o := by
  have hcs := eq_ok_get (x := launched.callAll [.tick 1, .handle 1 1 (.voteResponse 1 true),
    .propose 1 [7]]) (by decide +kernel)
  have hcall := eq_ok_get (x := proposing.call (.handle 1 1 (.appendResponse 1 true 1)))
    (by decide +kernel)
  obtain ⟨hrange, hgrows, hbatched⟩ := leader_bookkeeping
    (eq_ok_get (x := new (System.eager 0) Disk.empty 0) (by decide +kernel)) hcs
  refine ⟨hrange (by decide +kernel) 1 (by decide +kernel), _, _, _, hcall, ?_, by decide +kernel,
    hbatched _ _ _ _ hcall⟩
  refine (hgrows [.handle 1 1 (.appendResponse 1 true 1)] _ ?_ (by decide +kernel)
    (by decide +kernel)).2
  exact bind_eq_ok.mpr ⟨_, hcall, rfl⟩

end Node

end Landsraad
