import Landsraad.Raft.Lifetime

/-!
# Where written entries come from

What a node writes to its log it had, or was sent, or makes itself as the leader of its term.
-/

namespace Landsraad

open ReplicatedLog Checked

/-- Every entry of the log is one that `P` allows at its position. -/
def Admits (P : Nat → Entry → Prop) (l : List Entry) : Prop := ∀ k e, l[k]? = some e → P k e

/-- So is every entry that the message carries. -/
def Message.Admits (P : Nat → Entry → Prop) : Message → Prop
  | .appendEntries _ prevIndex _ entries _ =>
    ∀ k e, entries[k]? = some e → P (prevIndex + k) e
  | _ => True

/-- An entry with the command may be made in the call: a proposal, or the no-op of a leader that
wins its term. -/
def Call.Brings (c : Call) (command : List UInt8) : Prop :=
  command = [] ∨ ∃ now, c = .propose now command

section

variable {P : Nat → Entry → Prop} {l entries : List Entry}

theorem Admits.take (h : Admits P l) (m : Nat) : Admits P (l.take m) := by
  intro k e he
  rw [List.getElem?_take] at he
  split at he
  · exact h k e he
  · cases he

theorem Admits.append (h : Admits P l)
    (hentries : ∀ k e, entries[k]? = some e → P (l.length + k) e) : Admits P (l ++ entries) := by
  intro k e he
  rw [List.getElem?_append] at he
  split at he
  · exact h k e he
  · next hge =>
    have hp := hentries _ e he
    rwa [Nat.add_sub_cancel' (Nat.le_of_not_lt hge)] at hp

theorem Admits.slice {prevIndex prevTerm : Nat} (h : Admits P l)
    (hslice : IsSlice l prevIndex prevTerm entries) :
    ∀ k e, entries[k]? = some e → P (prevIndex + k) e := by
  intro k e he
  have hlt := (List.getElem?_eq_some_iff.mp he).1
  have hag := (AgreeUpTo.of_isPrefix hslice.2.2 le_rfl).getElem?_eq hlt
  rw [he, List.getElem?_drop] at hag
  exact h _ e hag.symm

end

/-! ## What a call writes -/

namespace Node

variable {P : Nat → Entry → Prop} {n m n' : Node Disk} {now : Nat} {out : List Outgoing}

/-- From `n` to `n'` only logs that `P` allows were written. -/
structure Flowed (P : Nat → Entry → Prop) (n n' : Node Disk) : Prop where
  states : ∀ p ∈ n'.storage.states, p ∈ n.storage.states ∨ Admits P p.log
  log : Admits P n'.log

theorem Flowed.same (hlog : Admits P n.log) (hstorage : n'.storage = n.storage)
    (heq : n'.log = n.log) : Flowed P n n' where
  states p hp := by
    rw [hstorage] at hp
    exact .inl hp
  log := by
    rw [heq]
    exact hlog

theorem Flowed.trans (h : Flowed P n m) (h' : Flowed P m n') : Flowed P n n' where
  states p hp := (h'.states p hp).elim (h.states p) .inr
  log := h'.log

theorem Flowed.write {p : Persistent} (hstorage : n'.storage = n.storage.write p)
    (hp : Admits P p.log) (hlog : Admits P n'.log) : Flowed P n n' where
  states q hq := by
    rw [hstorage] at hq
    rcases List.mem_cons.mp hq with rfl | hq
    · exact .inr hp
    · exact .inl hq
  log := hlog

theorem Persisted.admits (h : n.Persisted) (hlog : Admits P n.log) :
    Admits P n.storage.current.log := by
  rw [h]
  exact hlog

theorem appended_flowed {e : Entry} (hp : n.Persisted) (hlog : Admits P n.log)
    (hown : ∀ k, P k e) : Flowed P n (n.appended e) := by
  have hall : Admits P (n.log ++ [e]) := by
    apply hlog.append
    intro k e' he'
    obtain rfl : e' = e := by simpa using List.mem_of_getElem? he'
    exact hown _
  refine .write rfl ?_ hall
  show Admits P (n.storage.current.log ++ [e])
  rw [hp]
  exact hall

theorem becomeLeader_flowed (hp : n.Persisted) (hlog : Admits P n.log)
    (hown : ∀ k, P k ⟨n.term, []⟩) (h : n.becomeLeader now = .ok (n', out)) : Flowed P n n' := by
  obtain ⟨c, deadline, rfl, _⟩ := becomeLeader_ok h
  have hflow := appended_flowed hp hlog hown
  exact ⟨hflow.states, hflow.log⟩

theorem stepDown_flowed {term : Nat} (hp : n.Persisted) (hlog : Admits P n.log)
    (h : n.stepDown now term = .ok n') : Flowed P n n' := by
  obtain ⟨deadline, rng, rfl⟩ := stepDown_ok h
  exact .write rfl (hp.admits hlog) hlog

theorem startElection_flowed (hp : n.Persisted) (hlog : Admits P n.log)
    (hown : n'.role = .leader → ∀ k, P k ⟨n'.term, []⟩)
    (h : n.startElection now = .ok (n', out)) : Flowed P n n' := by
  obtain ⟨deadline, rng, _, hcase⟩ := startElection_ok h
  have hstanding : Flowed P n (n.standing deadline rng) := .write rfl (hp.admits hlog) hlog
  rcases hcase with ⟨_, hl⟩ | ⟨rfl, _⟩
  · have hpersisted : (n.standing deadline rng).Persisted := by
      unfold Persisted at hp
      simp [Persisted, standing, Journal.write, hp]
    obtain ⟨c, deadline', hn', _⟩ := becomeLeader_ok hl
    subst hn'
    exact hstanding.trans (becomeLeader_flowed hpersisted hlog (hown rfl) hl)
  · exact hstanding

theorem tick_flowed (hp : n.Persisted) (hlog : Admits P n.log)
    (hown : n'.role = .leader → ∀ k, P k ⟨n'.term, []⟩)
    (h : n.tick now = .ok (n', out)) : Flowed P n n' := by
  rcases tick_ok h with ⟨rfl, _⟩ | ⟨_, deadline, rfl, _⟩ | ⟨_, hs⟩
  · exact .same hlog rfl rfl
  · exact .same hlog rfl rfl
  · exact startElection_flowed hp hlog hown hs

theorem propose_flowed {command : List UInt8} {answer : Except ProposeError (Nat × List Outgoing)}
    (hp : n.Persisted) (hlog : Admits P n.log)
    (hown : n'.role = .leader → ∀ k, P k ⟨n'.term, command⟩)
    (h : n.propose now command = .ok (n', answer)) : Flowed P n n' := by
  rcases propose_ok h with ⟨_, rfl, _⟩ | ⟨hrole, c, _, rfl, _⟩
  · exact .same hlog rfl rfl
  · have hflow := appended_flowed hp hlog (hown hrole)
    exact ⟨hflow.states, hflow.log⟩

theorem onRequestVote_flowed {sender term lastLogIndex lastLogTerm : Nat} (hp : n.Persisted)
    (hlog : Admits P n.log)
    (h : n.onRequestVote now sender term lastLogIndex lastLogTerm = .ok (n', out)) :
    Flowed P n n' := by
  rcases onRequestVote_ok h with ⟨rfl, _⟩ | ⟨_, _, _, _, deadline, rng, rfl⟩
  · exact .same hlog rfl rfl
  · exact .write rfl (hp.admits hlog) hlog

theorem onVoteResponse_flowed {sender term : Nat} {granted : Bool} (hp : n.Persisted)
    (hlog : Admits P n.log) (hown : n'.role = .leader → ∀ k, P k ⟨n'.term, []⟩)
    (h : n.onVoteResponse now sender term granted = .ok (n', out)) : Flowed P n n' := by
  rcases onVoteResponse_ok h with ⟨rfl, _⟩ | ⟨_, _, _, _, ⟨_, hl⟩ | ⟨rfl, _⟩⟩
  · exact .same hlog rfl rfl
  · have hcounted : Persisted { n with votes := n.votes.set sender true } := hp
    obtain ⟨c, deadline, hn', _⟩ := becomeLeader_ok hl
    subst hn'
    have hflow := becomeLeader_flowed hcounted hlog (hown rfl) hl
    exact ⟨hflow.states, hflow.log⟩
  · exact .same hlog rfl rfl

theorem spliced_flowed {k : Nat} {entries : List Entry} (hp : n.Persisted) (hlog : Admits P n.log)
    (hk : k ≤ n.log.length) (hentries : ∀ x e, entries[x]? = some e → P (k + x) e) :
    Flowed P n (n.spliced k entries) := by
  have hlen : (n.log.take k).length = k := by
    rw [List.length_take, min_eq_left hk]
  have hall : Admits P (n.log.take k ++ entries) := by
    apply (hlog.take k).append
    rw [hlen]
    exact hentries
  have hextend : ∀ m : Node Disk, m.Persisted → m.log = n.log.take k →
      Flowed P m (m.extended entries) := by
    intro m hm hmlog
    rw [← hmlog] at hall
    refine .write rfl ?_ hall
    show Admits P (m.storage.current.log ++ entries)
    rw [hm]
    exact hall
  unfold spliced
  split
  · have htruncated : Flowed P n (n.truncated k) := by
      refine .write rfl ?_ (hlog.take k)
      show Admits P (n.storage.current.log.take k)
      rw [hp]
      exact hlog.take k
    have hpersisted : (n.truncated k).Persisted := by
      unfold Persisted at hp
      simp [Persisted, truncated, Journal.write, hp]
    exact htruncated.trans (hextend _ hpersisted rfl)
  · next hge =>
    exact hextend n hp (List.take_of_length_le (Nat.le_of_not_lt hge)).symm

theorem onAppendEntries_flowed {sender term prevIndex prevTerm leaderCommit : Nat}
    {entries : List Entry} (hp : n.Persisted) (hlog : Admits P n.log)
    (hentries : ∀ k e, entries[k]? = some e → P (prevIndex + k) e)
    (h : n.onAppendEntries now sender term prevIndex prevTerm entries leaderCommit =
      .ok (n', out)) : Flowed P n n' := by
  rcases onAppendEntries_ok h with ⟨_, rfl, _⟩ | ⟨_, _, deadline, rng, hcase⟩
  · exact .same hlog rfl rfl
  rcases hcase with ⟨_, rfl, _⟩ | ⟨hprev, _, m, hm, rfl, _⟩
  · exact .same hlog rfl rfl
  · have hmerged : Flowed P (n.following sender deadline rng) m := by
      rcases mergeEntries_ok hprev hm with ⟨rfl, _⟩ | ⟨j, e, _, _, hj, _, rfl⟩
      · exact .same hlog rfl rfl
      · rw [Nat.add_zero] at hj ⊢
        refine spliced_flowed hp hlog hj fun x e he => ?_
        rw [List.getElem?_drop] at he
        rw [Nat.add_assoc]
        exact hentries _ e he
    exact ⟨by rw [committing_storage]; exact hmerged.states,
      by rw [committing_log]; exact hmerged.log⟩

theorem onAppendResponse_flowed {sender term matchIndex : Nat} {success : Bool}
    (hlog : Admits P n.log)
    (h : n.onAppendResponse sender term success matchIndex = .ok (n', out)) : Flowed P n n' := by
  rcases onAppendResponse_ok h with ⟨_, rfl, _⟩ | ⟨_, _, known, _, hcase⟩
  · exact .same hlog rfl rfl
  rcases hcase with ⟨_, hcommit, _⟩ | ⟨_, next, o, _, rfl, _⟩
  · obtain ⟨c, rfl, _⟩ := advanceCommit_ok hcommit
    exact .same hlog rfl rfl
  · exact .same hlog rfl rfl

theorem receive_flowed {sender : Nat} {msg : Message} (hp : n.Persisted) (hlog : Admits P n.log)
    (hmsg : msg.Admits P) (hown : n'.role = .leader → ∀ k, P k ⟨n'.term, []⟩)
    (h : n.receive now sender msg = .ok (n', out)) : Flowed P n n' := by
  cases msg with
  | requestVote term lastLogIndex lastLogTerm => exact onRequestVote_flowed hp hlog h
  | voteResponse term granted => exact onVoteResponse_flowed hp hlog hown h
  | appendEntries term prevIndex prevTerm entries leaderCommit =>
    exact onAppendEntries_flowed hp hlog hmsg h
  | appendResponse term success matchIndex => exact onAppendResponse_flowed hlog h

theorem handle_flowed {sender : Nat} {msg : Message} (hp : n.Persisted) (hlog : Admits P n.log)
    (hmsg : msg.Admits P) (hown : n'.role = .leader → ∀ k, P k ⟨n'.term, []⟩)
    (h : n.handle now sender msg = .ok (n', out)) : Flowed P n n' := by
  rcases handle_ok h with ⟨_, rfl, _⟩ | ⟨_, _, ⟨_, hr⟩ | ⟨_, f, hf, hr⟩⟩
  · exact .same hlog rfl rfl
  · exact receive_flowed hp hlog hmsg hown hr
  · have hdown := stepDown_flowed hp hlog hf
    exact hdown.trans (receive_flowed (stepDown_persisted hp hf) hdown.log hmsg hown hr)

/-- All that a call writes, and sends, was in the log before, or in the message, or is an entry
that the call brings, of the term that the node leads afterwards. -/
theorem call_flowed {c : Call} {answer : Option Nat} (hp : n.Persisted) (hlog : Admits P n.log)
    (hmsg : ∀ now sender msg, c = .handle now sender msg → msg.Admits P)
    (hown : n'.role = .leader → ∀ k command, c.Brings command → P k ⟨n'.term, command⟩)
    (h : n.call c = .ok (n', out, answer)) :
    Flowed P n n' ∧ ∀ o ∈ out, o.message.Admits P := by
  have hnoop : n'.role = .leader → ∀ k, P k ⟨n'.term, []⟩ :=
    fun hrole k => hown hrole k [] (.inl rfl)
  have hflow : Flowed P n n' := by
    cases c with
    | tick now => exact tick_flowed hp hlog hnoop (call_tick_ok h).1
    | propose now command =>
      obtain ⟨_, hprop, _⟩ := call_propose_ok h
      exact propose_flowed hp hlog (fun hrole k => hown hrole k command (.inr ⟨now, rfl⟩)) hprop
    | handle now sender msg =>
      exact handle_flowed hp hlog (hmsg now sender msg rfl) hnoop (call_handle_ok h).1
  refine ⟨hflow, fun o ho => ?_⟩
  have hacc := call_accounted hp h
  have hjustified := (hacc.justified o ho).2
  rw [hacc.persisted] at hjustified
  cases hm : o.message with
  | appendEntries term prevIndex prevTerm entries leaderCommit =>
    rw [hm] at hjustified
    exact hflow.log.slice hjustified
  | _ => trivial

end Node

theorem Journal.states_rewind_subset {σ : Type} (j : Journal σ) (lost : Nat) :
    (j.rewind lost).states ⊆ j.states := by
  obtain ⟨current, earlier⟩ := j
  induction earlier generalizing current lost with
  | nil => cases lost <;> exact List.Subset.refl _
  | cons s ss ih =>
    cases lost with
    | zero => exact List.Subset.refl _
    | succ lost => exact List.subset_cons_of_subset _ (ih lost s)

end Landsraad
