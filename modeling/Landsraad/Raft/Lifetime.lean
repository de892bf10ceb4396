import Mathlib.Data.List.Pairwise
import Landsraad.Raft.Persistence

/-!
# The lifetime of one node id

A lifetime is any number of incarnations over one storage. Each incarnation is started from
what the storage holds, handles arbitrary calls and ends in a crash, at rest, after a call or
between two storage writes of a call. The journal of the storage keeps the sequence of all hard
states ever written.
-/

namespace Landsraad

open Checked

/-- A hard state that may be written after `q`: of a later term, or of the same term with the
vote of `q` unless that was still free. -/
def Supersedes (p q : Persistent) : Prop :=
  q.term ≤ p.term ∧ (q.term = p.term → ∀ x, q.votedFor = some x → p.votedFor = some x)

namespace Supersedes

variable {p q r : Persistent}

theorem refl (p : Persistent) : Supersedes p p := ⟨le_rfl, fun _ _ hx => hx⟩

theorem trans (h : Supersedes p q) (h' : Supersedes q r) : Supersedes p r := by
  refine ⟨h'.1.trans h.1, fun hterm x hx => ?_⟩
  have hq : r.term = q.term := le_antisymm h'.1 (by rw [hterm]; exact h.1)
  exact h.2 (hq.symm.trans hterm) x (h'.2 hq x hx)

theorem of_lt (h : q.term < p.term) : Supersedes p q :=
  ⟨h.le, fun hterm => absurd hterm h.ne⟩

theorem of_eq (hterm : q.term = p.term) (hvote : q.votedFor = p.votedFor) : Supersedes p q :=
  ⟨hterm.le, fun _ _ hx => hvote.symm.trans hx⟩

end Supersedes

/-- The storage `d'` comes from `d` by writes that each supersede the state before. -/
inductive Ascends (d : Disk) : Disk → Prop
  | refl : Ascends d d
  | write {d' : Disk} {p : Persistent} : Ascends d d' → Supersedes p d'.current →
      Ascends d (d'.write p)

namespace Ascends

variable {d d' d'' : Disk} {p : Persistent}

theorem single (h : Supersedes p d.current) : Ascends d (d.write p) := .write .refl h

theorem trans (h : Ascends d d') (h' : Ascends d' d'') : Ascends d d'' := by
  induction h' with
  | refl => exact h
  | write _ hs ih => exact ih.write hs

theorem subset (h : Ascends d d') : d.states ⊆ d'.states := by
  induction h with
  | refl => exact List.Subset.refl _
  | write _ _ ih => exact fun q hq => List.mem_cons_of_mem _ (ih hq)

/-- Every earlier state is superseded by every later one. -/
theorem pairwise (h : Ascends d d') (hd : d.states.Pairwise Supersedes) :
    d'.states.Pairwise Supersedes := by
  induction h with
  | refl => exact hd
  | @write d₁ p _ hs ih =>
    apply List.pairwise_cons.mpr
    refine ⟨fun q hq => ?_, ih⟩
    rcases List.mem_cons.mp hq with rfl | hq
    · exact hs
    · exact hs.trans ((List.pairwise_cons.mp ih).1 q hq)

theorem earlier_length_le (h : Ascends d d') : d.earlier.length ≤ d'.earlier.length := by
  induction h with
  | refl => exact le_rfl
  | write _ _ ih => exact ih.trans (by simp [Journal.write])

/-- A crash that loses the last writes leaves a storage on the way. -/
theorem rewind (h : Ascends d d') {lost : Nat} (hlost : lost ≤ System.writesBetween d d') :
    Ascends d (d'.rewind lost) := by
  induction h generalizing lost with
  | refl =>
    obtain rfl : lost = 0 := by simpa [System.writesBetween] using hlost
    exact .refl
  | @write d₁ p hprev hs ih =>
    cases lost with
    | zero => exact hprev.write hs
    | succ lost =>
      apply ih
      have hle := hprev.earlier_length_le
      simp only [System.writesBetween, Journal.write, List.length_cons] at hlost ⊢
      omega

end Ascends

namespace Node

variable {n n' : Node Disk} {now : Nat} {out : List Outgoing}

/-- A node that has stood for its term has voted for itself. -/
def SelfVoted (n : Node Disk) : Prop := n.role ≠ .follower → n.votedFor = some n.cfg.id

/-- A call wrote hard states that supersede one another, and kept the rule on self-votes. -/
structure Ascended (n n' : Node Disk) : Prop where
  storage : Ascends n.storage n'.storage
  selfVoted : n'.SelfVoted
  cfg : n'.cfg = n.cfg

theorem Ascended.refl (h : n.SelfVoted) : Ascended n n := ⟨.refl, h, rfl⟩

theorem becomeLeader_ascended (hv : n.SelfVoted) (hrole : n.role ≠ .follower)
    (h : n.becomeLeader now = .ok (n', out)) : Ascended n n' := by
  obtain ⟨c, deadline, rfl, _⟩ := becomeLeader_ok h
  exact ⟨.single (.of_eq rfl rfl), fun _ => hv hrole, rfl⟩

theorem startElection_ascended (hp : n.Persisted) (h : n.startElection now = .ok (n', out)) :
    Ascended n n' := by
  obtain ⟨deadline, rng, _, hcase⟩ := startElection_ok h
  have hstanding : Ascended n (n.standing deadline rng) := by
    refine ⟨.single (.of_lt ?_), fun _ => rfl, rfl⟩
    rw [hp]
    exact Nat.lt_succ_self _
  rcases hcase with ⟨_, hl⟩ | ⟨rfl, _⟩
  · have hled := becomeLeader_ascended hstanding.selfVoted (by simp [standing]) hl
    exact ⟨hstanding.storage.trans hled.storage, hled.selfVoted, hled.cfg⟩
  · exact hstanding

theorem tick_ascended (hp : n.Persisted) (hv : n.SelfVoted)
    (h : n.tick now = .ok (n', out)) : Ascended n n' := by
  rcases tick_ok h with ⟨rfl, _⟩ | ⟨_, deadline, rfl, _⟩ | ⟨_, hs⟩
  · exact .refl hv
  · exact ⟨.refl, hv, rfl⟩
  · exact startElection_ascended hp hs

theorem stepDown_ascended {term : Nat} (hp : n.Persisted) (hlt : n.term < term)
    (h : n.stepDown now term = .ok n') : Ascended n n' := by
  obtain ⟨deadline, rng, rfl⟩ := stepDown_ok h
  refine ⟨.single (.of_lt ?_), fun hrole => absurd rfl hrole, rfl⟩
  rw [hp]
  exact hlt

theorem onRequestVote_ascended {sender term lastLogIndex lastLogTerm : Nat} (hp : n.Persisted)
    (hv : n.SelfVoted) (hne : sender ≠ n.cfg.id)
    (h : n.onRequestVote now sender term lastLogIndex lastLogTerm = .ok (n', out)) :
    Ascended n n' := by
  rcases onRequestVote_ok h with ⟨rfl, _⟩ | ⟨_, hfree, _, _, deadline, rng, rfl⟩
  · exact .refl hv
  · refine ⟨.single ?_, fun hrole => ?_, rfl⟩
    · rw [hp]
      refine ⟨le_rfl, fun _ x hx => ?_⟩
      rcases hfree with hfree | hfree
      · cases hfree.symm.trans hx
      · exact hfree.symm.trans hx
    · -- a candidate or leader has voted for itself and grants nothing
      have hself := hv hrole
      rcases hfree with hfree | hfree
      · cases hfree.symm.trans hself
      · cases hfree.symm.trans hself
        exact absurd rfl hne

theorem onVoteResponse_ascended {sender term : Nat} {granted : Bool} (hv : n.SelfVoted)
    (h : n.onVoteResponse now sender term granted = .ok (n', out)) : Ascended n n' := by
  rcases onVoteResponse_ok h with ⟨rfl, _⟩ | ⟨hrole, _, _, _, ⟨_, hl⟩ | ⟨rfl, _⟩⟩
  · exact .refl hv
  · have hled := becomeLeader_ascended (n := { n with votes := n.votes.set sender true }) hv
      (by simp [hrole]) hl
    exact ⟨hled.storage, hled.selfVoted, hled.cfg⟩
  · exact ⟨.refl, hv, rfl⟩

theorem spliced_ascends {k : Nat} {entries : List Entry} :
    Ascends n.storage (n.spliced k entries).storage := by
  unfold spliced
  split
  · exact .write (.write .refl (.of_eq rfl rfl)) (.of_eq rfl rfl)
  · exact .single (.of_eq rfl rfl)

theorem onAppendEntries_ascended {sender term prevIndex prevTerm leaderCommit : Nat}
    {entries : List Entry} (hv : n.SelfVoted)
    (h : n.onAppendEntries now sender term prevIndex prevTerm entries leaderCommit =
      .ok (n', out)) : Ascended n n' := by
  rcases onAppendEntries_ok h with ⟨_, rfl, _⟩ | ⟨_, _, deadline, rng, hcase⟩
  · exact .refl hv
  rcases hcase with ⟨_, rfl, _⟩ | ⟨hprev, _, m, hm, rfl, _⟩
  · exact ⟨.refl, fun hrole => absurd rfl hrole, rfl⟩
  · have hrole : (m.committing leaderCommit (prevIndex + entries.length)).role = .follower := by
      rw [committing_role, (mergeEntries_frame hprev hm).1]
      rfl
    have hmerged : Ascends n.storage m.storage := by
      rcases mergeEntries_ok hprev hm with ⟨rfl, _⟩ | ⟨j, e, _, _, _, _, rfl⟩
      · exact .refl
      · exact spliced_ascends (n := n.following sender deadline rng)
    have hcfg : m.cfg = n.cfg :=
      mergeEntries_cfg (n := n.following sender deadline rng) hprev hm
    refine ⟨?_, fun hno => absurd hrole hno, committing_cfg.trans hcfg⟩
    rw [committing_storage]
    exact hmerged

theorem onAppendResponse_ascended {sender term matchIndex : Nat} {success : Bool}
    (hv : n.SelfVoted) (h : n.onAppendResponse sender term success matchIndex = .ok (n', out)) :
    Ascended n n' := by
  rcases onAppendResponse_ok h with ⟨_, rfl, _⟩ | ⟨_, _, known, _, hcase⟩
  · exact .refl hv
  rcases hcase with ⟨_, hcommit, _⟩ | ⟨_, next, o, _, rfl, _⟩
  · obtain ⟨c, rfl, _⟩ := advanceCommit_ok hcommit
    exact ⟨.refl, hv, rfl⟩
  · exact ⟨.refl, hv, rfl⟩

theorem receive_ascended {sender : Nat} {msg : Message} (hp : n.Persisted) (hv : n.SelfVoted)
    (hne : sender ≠ n.cfg.id) (h : n.receive now sender msg = .ok (n', out)) :
    Ascended n n' := by
  cases msg with
  | requestVote term lastLogIndex lastLogTerm => exact onRequestVote_ascended hp hv hne h
  | voteResponse term granted => exact onVoteResponse_ascended hv h
  | appendEntries term prevIndex prevTerm entries leaderCommit =>
    exact onAppendEntries_ascended hv h
  | appendResponse term success matchIndex => exact onAppendResponse_ascended hv h

theorem handle_ascended {sender : Nat} {msg : Message} (hp : n.Persisted) (hv : n.SelfVoted)
    (h : n.handle now sender msg = .ok (n', out)) : Ascended n n' := by
  rcases handle_ok h with ⟨_, rfl, _⟩ | ⟨hne, _, ⟨_, hr⟩ | ⟨hlt, f, hf, hr⟩⟩
  · exact .refl hv
  · exact receive_ascended hp hv hne hr
  · have hdown := stepDown_ascended hp hlt hf
    have hrecv := receive_ascended (stepDown_persisted hp hf) hdown.selfVoted
      (by rw [hdown.cfg]; exact hne) hr
    exact ⟨hdown.storage.trans hrecv.storage, hrecv.selfVoted, hrecv.cfg.trans hdown.cfg⟩

theorem call_ascended {c : Call} {answer : Option Nat} (hp : n.Persisted) (hv : n.SelfVoted)
    (h : n.call c = .ok (n', out, answer)) : Ascended n n' := by
  cases c with
  | tick now =>
    obtain ⟨ht, rfl⟩ := call_tick_ok h
    exact tick_ascended hp hv ht
  | propose now command =>
    obtain ⟨_, hprop, _⟩ := call_propose_ok h
    rcases propose_ok hprop with ⟨_, rfl, _⟩ | ⟨_, c, _, rfl, _⟩
    · exact .refl hv
    · exact ⟨.single (.of_eq rfl rfl), hv, rfl⟩
  | handle now sender msg =>
    obtain ⟨hh, rfl⟩ := call_handle_ok h
    exact handle_ascended hp hv hh

end Node

/-! ## Lifetimes -/

/-- The node `id`, live or crashed, and the messages its incarnations have returned. -/
structure Lifetime where
  slot : Slot
  sent : List Outgoing

namespace Lifetime

inductive Event
  | start (cfg : Config) (now : Nat)
  | call (c : Call) (fate : Fate)
  | crash

/-- A node that was never started, over the storage state `p`. -/
def initial (p : Persistent) : Lifetime := ⟨.down ⟨p, []⟩, []⟩

def step (id : Nat) (l : Lifetime) : Event → Option Lifetime
  | .start cfg now =>
    match l.slot with
    | .up _ _ => none
    | .down d =>
      if cfg.id = id then
        match Node.new cfg d now with
        | .error _ => none
        | .ok n => some { l with slot := .up n [] }
      else none
  | .call c fate =>
    match l.slot with
    | .down _ => none
    | .up n delivered =>
      match fate with
      | .crashesWithin lost =>
        match n.attempt c with
        | .error _ => none
        | .ok (n', _, _) =>
          if lost ≤ System.writesBetween n.storage n'.storage then
            some { l with slot := .down (n'.storage.rewind lost) }
          else none
      | .crashesAfter =>
        match n.call c with
        | .error _ => none
        | .ok (n', _, _) => some { l with slot := .down n'.storage }
      | .returns =>
        match n.call c with
        | .error _ => none
        | .ok (n', out, _) => some ⟨.up n' delivered, l.sent ++ out⟩
  | .crash =>
    match l.slot with
    | .down _ => none
    | .up n _ => some { l with slot := .down n.storage }

def run (id : Nat) (l : Lifetime) (events : List Event) : Option Lifetime :=
  Run.exec (step id) l events

/-- The sequence of all storage states so far, the latest first. -/
def states (l : Lifetime) : List Persistent := l.slot.disk.states

variable {id : Nat} {l l' : Lifetime} {events more : List Event}

/-- What an event that was possible has done. -/
theorem step_ok {e : Event} (h : l.step id e = some l') :
    (∃ d cfg now n, l.slot = .down d ∧ cfg.id = id ∧ Node.new cfg d now = .ok n ∧
        l' = { l with slot := .up n [] }) ∨
      (∃ n delivered m c n' out answer, l.slot = .up n delivered ∧
        (m = n ∨ m = n.eased) ∧ m.call c = .ok (n', out, answer) ∧
        ((m = n ∧ l' = ⟨.up n' delivered, l.sent ++ out⟩) ∨
          ∃ lost, lost ≤ System.writesBetween n.storage n'.storage ∧
            l' = { l with slot := .down (n'.storage.rewind lost) })) ∨
      ∃ n delivered, l.slot = .up n delivered ∧ l' = { l with slot := .down n.storage } := by
  cases e with
  | start cfg now =>
    simp only [step] at h
    split at h
    · cases h
    next d hslot =>
    split at h
    swap
    · cases h
    next hid =>
    split at h
    · cases h
    next n hnew =>
    cases h
    exact .inl ⟨d, cfg, now, n, hslot, hid, hnew, rfl⟩
  | call c fate =>
    simp only [step] at h
    split at h
    · cases h
    next n delivered hslot =>
    cases fate with
    | returns =>
      dsimp only at h
      split at h <;> cases h
      next n' out answer hcall =>
      exact .inr (.inl ⟨n, delivered, n, c, n', out, answer, hslot, .inl rfl, hcall,
        .inl ⟨rfl, rfl⟩⟩)
    | crashesAfter =>
      dsimp only at h
      split at h <;> cases h
      next n' out answer hcall =>
      exact .inr (.inl ⟨n, delivered, n, c, n', out, answer, hslot, .inl rfl, hcall,
        .inr ⟨0, Nat.zero_le _, rfl⟩⟩)
    | crashesWithin lost =>
      dsimp only at h
      split at h
      · cases h
      next n' out answer hattempt =>
      split at h <;> cases h
      next hlost =>
      obtain ⟨m, hm, hcall⟩ := Node.attempt_ok hattempt
      exact .inr (.inl ⟨n, delivered, m, c, n', out, answer, hslot, hm, hcall,
        .inr ⟨lost, hlost, rfl⟩⟩)
  | crash =>
    simp only [step] at h
    split at h
    · cases h
    next n delivered hslot =>
    cases h
    exact .inr (.inr ⟨n, delivered, hslot, rfl⟩)

/-- The invariant of a lifetime. Every granted vote is one of the states ever written. -/
structure Faithful (id : Nat) (l : Lifetime) : Prop where
  ordered : l.states.Pairwise Supersedes
  live : ∀ n delivered, l.slot = .up n delivered →
    n.cfg.id = id ∧ n.Persisted ∧ n.SelfVoted
  granted : ∀ x t, ⟨x, .voteResponse t true⟩ ∈ l.sent →
    ∃ p ∈ l.states, p.term = t ∧ p.votedFor = some x

theorem Faithful.initial (p : Persistent) : Faithful id (initial p) where
  ordered := List.pairwise_singleton _ _
  live := by
    intro n delivered hslot
    cases hslot
  granted := by
    intro x t hmem
    cases hmem

/-- An event only adds states that supersede the present one. -/
theorem Faithful.ascends {e : Event} (h : Faithful id l) (hs : l.step id e = some l') :
    Ascends l.slot.disk l'.slot.disk := by
  rcases step_ok hs with ⟨d, cfg, now, n, hslot, _, hnew, rfl⟩ |
    ⟨n, delivered, m, c, n', out, answer, hslot, hm, hcall, hfate⟩ | ⟨n, delivered, hslot, rfl⟩
  · obtain ⟨_, deadline, rng, rfl⟩ := Node.new_ok hnew
    rw [hslot]
    exact .refl
  · obtain ⟨_, hp, hv⟩ := h.live n delivered hslot
    have hasc : Ascends n.storage n'.storage := by
      rcases hm with rfl | rfl
      · exact (Node.call_ascended hp hv hcall).storage
      · exact (Node.call_ascended (n := n.eased) hp hv hcall).storage
    rw [hslot]
    rcases hfate with ⟨rfl, rfl⟩ | ⟨lost, hlost, rfl⟩
    · exact hasc
    · exact hasc.rewind hlost
  · rw [hslot]
    exact .refl

theorem Faithful.step {e : Event} (h : Faithful id l) (hs : l.step id e = some l') :
    Faithful id l' := by
  have hasc := h.ascends hs
  have hkept : ∀ x t, ⟨x, .voteResponse t true⟩ ∈ l.sent →
      ∃ p ∈ l'.states, p.term = t ∧ p.votedFor = some x := by
    intro x t hmem
    obtain ⟨p, hp, hpt⟩ := h.granted x t hmem
    exact ⟨p, hasc.subset hp, hpt⟩
  refine ⟨hasc.pairwise h.ordered, ?_, ?_⟩
  · intro n₁ delivered' hup
    rcases step_ok hs with ⟨d, cfg, now, n, _, hid, hnew, rfl⟩ |
      ⟨n, delivered, m, c, n', out, answer, hslot, _, hcall, ⟨rfl, rfl⟩ | ⟨lost, _, rfl⟩⟩ |
      ⟨n, delivered, _, rfl⟩
    · cases hup
      obtain ⟨_, deadline, rng, rfl⟩ := Node.new_ok hnew
      exact ⟨hid, rfl, fun hrole => absurd rfl hrole⟩
    · cases hup
      obtain ⟨hid, hp, hv⟩ := h.live m _ hslot
      have hcalled := Node.call_ascended hp hv hcall
      exact ⟨by rw [hcalled.cfg]; exact hid, (Node.call_accounted hp hcall).persisted,
        hcalled.selfVoted⟩
    · cases hup
    · cases hup
  · intro x t hmem
    rcases step_ok hs with ⟨d, cfg, now, n, _, _, _, rfl⟩ |
      ⟨n, delivered, m, c, n', out, answer, hslot, _, hcall, ⟨rfl, rfl⟩ | ⟨lost, _, rfl⟩⟩ |
      ⟨n, delivered, _, rfl⟩
    · exact hkept x t hmem
    · rcases List.mem_append.mp hmem with hmem | hmem
      · exact hkept x t hmem
      · have hacc := Node.call_accounted (h.live m delivered hslot).2.1 hcall
        obtain ⟨hterm, hvote⟩ := hacc.justified _ hmem
        exact ⟨n'.storage.current, List.mem_cons_self, hterm.symm, hvote rfl⟩
    · exact hkept x t hmem
    · exact hkept x t hmem

theorem Faithful.run (h : Faithful id l) (hr : l.run id events = some l') :
    Faithful id l' ∧ Ascends l.slot.disk l'.slot.disk := by
  refine Run.exec_induction (P := fun l' => Faithful id l' ∧ Ascends l.slot.disk l'.slot.disk)
    ⟨h, .refl⟩ ?_ hr
  rintro l₁ l₂ e - ⟨h₁, hasc⟩ hs
  exact ⟨h₁.step hs, hasc.trans (h₁.ascends hs)⟩

/-- Two states of one term with a vote have the same vote. -/
theorem Faithful.vote_unique (h : Faithful id l) {p q : Persistent} (hp : p ∈ l.states)
    (hq : q ∈ l.states) (hterm : p.term = q.term) {x y : Nat} (hx : p.votedFor = some x)
    (hy : q.votedFor = some y) : x = y := by
  have hcases : Supersedes p q ∨ Supersedes q p := by
    have hall : l.states.Pairwise fun p q => Supersedes p q ∨ Supersedes q p :=
      h.ordered.imp .inl
    have hsymm : Std.Symm fun p q => Supersedes p q ∨ Supersedes q p := ⟨fun _ _ => Or.symm⟩
    exact hall.forall_of_forall (fun p _ => .inl (.refl p)) hp hq
  rcases hcases with hpq | hqp
  · have hvote := hpq.2 hterm.symm y hy
    exact Option.some.inj (hx.symm.trans hvote)
  · have hvote := hqp.2 hterm x hx
    exact Option.some.inj (hvote.symm.trans hy)

/-- Over a whole lifetime the hard states written never go back to an earlier term and, within
one term, never drop or change a vote. All votes granted in one term go to one candidate, and
a term in which the node stood at any moment `l` sees no grant to another node, before or
after. -/
theorem vote_written_once {p : Persistent} (h : (initial p).run id events = some l)
    (h' : l.run id more = some l') :
    l'.states.Pairwise Supersedes ∧
      (∀ t x y, ⟨x, .voteResponse t true⟩ ∈ l'.sent → ⟨y, .voteResponse t true⟩ ∈ l'.sent →
        x = y) ∧
      ∀ n delivered, l.slot = .up n delivered → n.role ≠ .follower →
        ∀ x, ⟨x, .voteResponse n.term true⟩ ∈ l'.sent → x = id := by
  obtain ⟨hl, _⟩ := Faithful.run (.initial p) h
  obtain ⟨hl', hasc⟩ := hl.run h'
  refine ⟨hl'.ordered, ?_, ?_⟩
  · intro t x y hx hy
    obtain ⟨q, hq, hqt, hqx⟩ := hl'.granted x t hx
    obtain ⟨r, hr, hrt, hry⟩ := hl'.granted y t hy
    exact hl'.vote_unique hq hr (hqt.trans hrt.symm) hqx hry
  · intro n delivered hslot hrole x hx
    obtain ⟨hid, hp, hv⟩ := hl.live n delivered hslot
    obtain ⟨q, hq, hqt, hqx⟩ := hl'.granted x n.term hx
    have hself : n.storage.current ∈ l'.states := by
      apply hasc.subset
      rw [hslot]
      exact List.mem_cons_self
    have hcur : n.storage.current.term = q.term := by
      rw [hp]
      exact hqt.symm
    have hvote : n.storage.current.votedFor = some id := by
      rw [hp, ← hid]
      exact hv hrole
    exact hl'.vote_unique hq hself hcur.symm hqx hvote

/-- Node 1 stands for term 1. -/
def standing : Lifetime :=
  ((initial .default).run 1 [.start (System.eager 1) 0, .call (.tick 1) .returns]).get
    (by decide +kernel)

/-- It crashes between the two writes of its vote for term 2 and grants the vote again. -/
def granting : Lifetime :=
  (standing.run 1 [.call (.handle 1 0 (.requestVote 2 0 0)) (.crashesWithin 1),
    .start (System.eager 1) 1, .call (.handle 1 0 (.requestVote 2 0 0)) .returns]).get
    (by decide +kernel)

theorem vote_written_once_granting : granting.states.Pairwise Supersedes :=
  (vote_written_once (l := standing) (Option.some_get _).symm (Option.some_get _).symm).1

end Lifetime

end Landsraad
