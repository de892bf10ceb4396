import Mathlib.Algebra.BigOperators.Group.Finset.Basic
import Mathlib.Algebra.Group.Action.Defs
import Mathlib.Algebra.Order.BigOperators.Group.List
import Mathlib.Algebra.Order.Ring.Nat
import Landsraad.Raft.Acknowledgement
import Landsraad.Raft.CommitRule

/-!
# Exchanges without a timer

A cluster whose nodes only answer messages: one message in flight is delivered at a time, and
what the recipient returns is in flight from then on. Every message has a weight such that the
answers to it, taken together, weigh less than it did.
-/

namespace Landsraad

open ReplicatedLog ReplicatedLog.Ledger Checked

namespace Node

variable {n n' : Node Disk} {now : Nat} {out : List Outgoing}

/-- What answering a message does to the role of a node: a candidate stays one with its log or
wins, a leader keeps its log, and no node begins to stand. -/
structure Answered (n n' : Node Disk) : Prop where
  cfg : n'.cfg = n.cfg
  candidate : n'.role = .candidate → n.role = .candidate ∧ n'.term = n.term ∧ n'.log = n.log
  leader : n'.role = .leader → n'.term = n.term ∧
    ((n.role = .leader ∧ n'.log = n.log) ∨
      (n.role = .candidate ∧ n'.log.length = n.log.length + 1))

theorem Answered.refl (n : Node Disk) : Answered n n :=
  ⟨rfl, fun h => ⟨h, rfl, rfl⟩, fun h => ⟨rfl, .inl ⟨h, rfl⟩⟩⟩

theorem Answered.of_follower (hcfg : n'.cfg = n.cfg) (h : n'.role = .follower) :
    Answered n n' := by
  refine ⟨hcfg, fun hc => ?_, fun hl => ?_⟩
  · rw [h] at hc
    cases hc
  · rw [h] at hl
    cases hl

theorem receive_answered {sender : Nat} {msg : Message} (hterm : msg.term ≤ n.term)
    (h : n.receive now sender msg = .ok (n', out)) : n'.term = n.term ∧ Answered n n' := by
  cases msg with
  | requestVote term lastLogIndex lastLogTerm =>
    rcases onRequestVote_ok h with ⟨rfl, _⟩ | ⟨_, _, _, _, deadline, rng, rfl⟩
    · exact ⟨rfl, .refl _⟩
    · exact ⟨rfl, rfl, fun hc => ⟨hc, rfl, rfl⟩, fun hl => ⟨rfl, .inl ⟨hl, rfl⟩⟩⟩
  | voteResponse term granted =>
    rcases onVoteResponse_ok h with ⟨rfl, _⟩ | ⟨hrole, _, _, _, ⟨_, hl⟩ | ⟨rfl, _⟩⟩
    · exact ⟨rfl, .refl _⟩
    · obtain ⟨c, deadline, rfl, _⟩ := becomeLeader_ok hl
      refine ⟨rfl, rfl, ?_, fun _ => ⟨rfl, .inr ⟨hrole, ?_⟩⟩⟩
      · intro hc
        cases hc
      · simp [inaugurated]
    · exact ⟨rfl, rfl, fun hc => ⟨hc, rfl, rfl⟩, fun hl => ⟨rfl, .inl ⟨hl, rfl⟩⟩⟩
  | appendEntries term prevIndex prevTerm entries leaderCommit =>
    rcases onAppendEntries_ok h with ⟨_, rfl, _⟩ | ⟨hge, _, deadline, rng, hcase⟩
    · exact ⟨rfl, .refl _⟩
    rcases hcase with ⟨_, rfl, _⟩ | ⟨hprev, _, m, hm, rfl, _⟩
    · exact ⟨rfl, .of_follower rfl rfl⟩
    · obtain ⟨hrole, hmterm⟩ := mergeEntries_frame hprev hm
      have hcfg : m.cfg = n.cfg :=
        mergeEntries_cfg (n := n.following sender deadline rng) hprev hm
      exact ⟨committing_term.trans hmterm,
        .of_follower (committing_cfg.trans hcfg) (committing_role.trans hrole)⟩
  | appendResponse term success matchIndex =>
    rcases onAppendResponse_ok h with ⟨_, rfl, _⟩ | ⟨hrole, _, known, _, hcase⟩
    · exact ⟨rfl, .refl _⟩
    rcases hcase with ⟨_, hcommit, _⟩ | ⟨_, next, o, _, rfl, _⟩
    · obtain ⟨c, rfl, _⟩ := advanceCommit_ok hcommit
      exact ⟨rfl, rfl, fun hc => ⟨hc, rfl, rfl⟩, fun hl => ⟨rfl, .inl ⟨hl, rfl⟩⟩⟩
    · exact ⟨rfl, rfl, fun hc => ⟨hc, rfl, rfl⟩, fun hl => ⟨rfl, .inl ⟨hl, rfl⟩⟩⟩

theorem handle_answered {sender : Nat} {msg : Message}
    (h : n.handle now sender msg = .ok (n', out)) :
    n'.term ≤ max n.term msg.term ∧ Answered n n' := by
  rcases handle_receives h with ⟨_, rfl, _⟩ | ⟨_, _, f, hr, hlog, hcfg, hterm, hf⟩
  · exact ⟨le_max_left _ _, .refl _⟩
  obtain ⟨hterm', hans⟩ := receive_answered (by rw [hterm]; exact le_max_right _ _) hr
  refine ⟨(hterm'.trans hterm).le, ?_⟩
  rcases hf with rfl | ⟨_, hrole⟩
  · exact hans
  · refine ⟨hans.cfg.trans hcfg, fun hc => ?_, fun hl => ?_⟩
    · have hcand := (hans.candidate hc).1
      rw [hrole] at hcand
      cases hcand
    · rcases (hans.leader hl).2 with ⟨hlead, _⟩ | ⟨hcand, _⟩
      · rw [hrole] at hlead
        cases hlead
      · rw [hrole] at hcand
        cases hcand

end Node

/-- A cluster and the messages that are in flight in it. -/
structure Exchange where
  system : System
  inFlight : List Envelope

/-- Any one message in flight is delivered. At a crashed node it vanishes. -/
inductive Delivers (size : Nat) : Exchange → Exchange → Prop
  | lost (s : System) (e : Envelope) (before after : List Envelope)
      (down : s.node e.recipient = none) :
      Delivers size ⟨s, before ++ e :: after⟩ ⟨s, before ++ after⟩
  | handled (s s' : System) (e : Envelope) (before after : List Envelope) (now : Nat)
      (step : s.perform size (.call e.recipient (.handle now e.sender e.message) .returns) =
        some s') :
      Delivers size ⟨s, before ++ e :: after⟩
        ⟨s', before ++ after ++ s'.sent.drop s.sent.length⟩

/-- Delivers the first message in flight. -/
def Exchange.deliverFirst (size : Nat) (x : Exchange) (now : Nat) : Option Exchange :=
  match x.inFlight with
  | [] => none
  | e :: rest =>
    match x.system.node e.recipient with
    | none => some ⟨x.system, rest⟩
    | some _ =>
      (x.system.perform size (.call e.recipient (.handle now e.sender e.message) .returns)).map
        fun s' => ⟨s', rest ++ s'.sent.drop x.system.sent.length⟩

theorem Exchange.deliverFirst_delivers {size : Nat} (x : Exchange) (now : Nat) (x' : Exchange)
    (h : x.deliverFirst size now = some x') : Delivers size x x' := by
  obtain ⟨s, inFlight⟩ := x
  cases inFlight with
  | nil => cases h
  | cons e rest =>
    simp only [deliverFirst] at h
    split at h
    · next hdown =>
      cases h
      exact .lost s e [] rest hdown
    · obtain ⟨s', hstep, rfl⟩ := Option.map_eq_some_iff.mp h
      exact .handled s s' e [] rest now hstep

/-! ## Weights -/

section

variable {size T M i j : Nat} {s s' : System} {n n' : Node Disk} {out : List Outgoing}

/-- Node `p` has acknowledged to the leader `i` of `t` a log that reaches `k`. -/
def Known (s : System) (i p t k : Nat) : Prop :=
  k = 0 ∨ ∃ m, k ≤ m ∧ ⟨p, i, .appendResponse t true m⟩ ∈ s.sent

open Classical in
/-- The weight of a message within its term, when no log exceeds `M`. An AppendEntries whose
previous entry is known to be there is accepted and weighs less than any other. -/
noncomputable def lightness (M : Nat) (s : System) (e : Envelope) : Nat :=
  match e.message with
  | .requestVote .. => 2
  | .voteResponse .. => 1
  | .appendEntries t prevIndex _ entries _ =>
    if Known s e.sender e.recipient t prevIndex then 2 * (M - (prevIndex + entries.length)) + 2
    else 2 * M + 2 + 2 * prevIndex
  | .appendResponse _ true matchIndex => 2 * (M - matchIndex) + 1
  | .appendResponse _ false hint => 2 * M + 2 + 2 * hint + 1

/-- Messages of earlier terms outweigh all answers of later terms. -/
noncomputable def weight (T M : Nat) (s : System) (e : Envelope) : Nat :=
  (T - e.message.term) * (2 * M + 4) + lightness M s e

/-- What a candidate may yet send if it wins. -/
def potential (size T M : Nat) (n : Node Disk) : Nat :=
  if n.role = .candidate then size * ((T - n.term) * (2 * M + 4) + (4 * M + 4)) else 0

theorem Known.mono {p t k : Nat} (h : Known s i p t k) (hsub : s.sent ⊆ s'.sent) :
    Known s' i p t k := by
  rcases h with h | ⟨m, hle, hmem⟩
  · exact .inl h
  · exact .inr ⟨m, hle, hsub hmem⟩

theorem lightness_pos (e : Envelope) : 0 < lightness M s e := by
  unfold lightness
  split
  · omega
  · omega
  · split <;> omega
  · omega
  · omega

theorem weight_pos (e : Envelope) : 0 < weight T M s e :=
  Nat.add_pos_right _ (lightness_pos e)

theorem lightness_mono (hsub : s.sent ⊆ s'.sent) (e : Envelope) :
    lightness M s' e ≤ lightness M s e := by
  unfold lightness
  split
  · exact le_rfl
  · exact le_rfl
  · split
    · split
      · exact le_rfl
      · omega
    · next hnew =>
      rw [if_neg fun hold => hnew (hold.mono hsub)]
  · exact le_rfl
  · exact le_rfl

theorem weight_mono (hsub : s.sent ⊆ s'.sent) (e : Envelope) :
    weight T M s' e ≤ weight T M s e :=
  Nat.add_le_add_left (lightness_mono hsub e) _

/-- An answer of a later term is lighter whatever it answers. -/
theorem weight_lt_of_later {e g : Envelope} (hlt : e.message.term < g.message.term)
    (hT : g.message.term ≤ T) (hlight : lightness M s' g ≤ 2 * M + 3) :
    weight T M s' g < weight T M s e := by
  have hsplit : T - e.message.term = T - g.message.term + (g.message.term - e.message.term) := by
    omega
  have hgap : 2 * M + 4 ≤ (g.message.term - e.message.term) * (2 * M + 4) :=
    Nat.le_mul_of_pos_left _ (by omega)
  unfold weight
  rw [hsplit, Nat.add_mul]
  omega

theorem weight_lt_of_same {e g : Envelope} (heq : g.message.term = e.message.term)
    (hlt : lightness M s' g < lightness M s e) : weight T M s' g < weight T M s e := by
  unfold weight
  rw [heq]
  exact Nat.add_lt_add_left hlt _

theorem potential_le (h : n.Answered n') : potential size T M n' ≤ potential size T M n := by
  unfold potential
  split
  · next hc =>
    obtain ⟨hcand, hterm, _⟩ := h.candidate hc
    rw [if_pos hcand, hterm]
  · exact Nat.zero_le _

/-! ## Calm clusters -/

/-- A reachable cluster in which no live node is past term `T`, and `M` bounds the logs of its
leaders and what its candidates would lead with. -/
structure Calm (size T M : Nat) (s : System) : Prop where
  reachable : ∃ acts, System.initial.run size acts = some s
  term_le : ∀ i n, s.node i = some n → n.term ≤ T
  batch : ∀ i n, s.node i = some n → 1 ≤ n.cfg.maxBatch
  leader_le : ∀ i n, s.node i = some n → n.role = .leader → n.log.length ≤ M
  candidate_lt : ∀ i n, s.node i = some n → n.role = .candidate → n.log.length + 1 ≤ M

theorem Calm.facts (h : Calm size T M s) :
    ∃ a acts, SystemSim size a s ∧ Holds a ∧ Backed size acts s := by
  obtain ⟨acts, hrun⟩ := h.reachable
  obtain ⟨A, hA, _⟩ := run_histories hrun
  obtain ⟨hsim, hholds⟩ := hA _ _ (.last hrun)
  exact ⟨_, acts, hsim, hholds, run_backed hrun⟩

theorem TermAt.of_agree {l l' : List Entry} {k t : Nat} (h : TermAt l k t)
    (hag : AgreeUpTo k l' l) : TermAt l' k t := by
  rcases h with h | ⟨hpos, e, he, ht⟩
  · exact .inl h
  · exact .inr ⟨hpos, e, (hag.getElem?_eq (by omega)).trans he, ht⟩

/-- A follower that has acknowledged the previous entry of an AppendEntries has it. -/
theorem Calm.has_known (h : Calm size T M s) {p t prevIndex prevTerm leaderCommit : Nat}
    {entries : List Entry}
    (hsent : ⟨i, p, .appendEntries t prevIndex prevTerm entries leaderCommit⟩ ∈ s.sent)
    (hknown : Known s i p t prevIndex) (hn : s.node p = some n) (hle : n.term ≤ t) :
    prevIndex ≤ n.log.length ∧ TermAt n.log prevIndex prevTerm := by
  obtain ⟨a, acts, hsim, hholds, _⟩ := h.facts
  have hnode := hsim.node hn
  obtain ⟨r, hr, _, ⟨_, hterm, _⟩, _⟩ := hsim.sent _ hsent
  have hag : AgreeUpTo prevIndex n.log r.ledger := by
    rcases hknown with rfl | ⟨m, hkm, hack⟩
    · exact .zero _ _
    rcases Nat.eq_zero_or_pos m with rfl | hpos
    · rw [Nat.le_zero.mp hkm]
      exact .zero _ _
    have hm : m ≤ a.ack p t := hsim.sent _ hack
    obtain ⟨hepoch, _⟩ := hsim.inv.ack_reign (hpos.trans_le hm)
    have hsame : t = a.epoch p := by
      apply le_antisymm hepoch
      rw [hnode.epoch]
      exact hle
    rw [hsame] at hm hr
    obtain ⟨r', hr', hag⟩ := hholds p m hpos hm
    rw [hr] at hr'
    cases hr'
    rw [hnode.log] at hag
    exact hag.mono hkm
  exact ⟨hag.1, hterm.of_agree hag⟩

/-! ## Every answer is lighter -/

/-- The messages `out` of the recipient of `e`, which went from `n` to `n'`, weigh less than
`e`, with what candidates may yet send counted on both sides. -/
def Lighter (size T M : Nat) (s s' : System) (e : Envelope) (n n' : Node Disk)
    (out : List Outgoing) : Prop :=
  (out.map fun o => weight T M s' ⟨e.recipient, o.recipient, o.message⟩).sum +
    potential size T M n' < weight T M s e + potential size T M n

theorem Lighter.silent {e : Envelope} (h : n.Answered n') : Lighter size T M s s' e n n' [] := by
  have hle : potential size T M n' ≤ potential size T M n := potential_le h
  have hpos : 0 < weight T M s e := weight_pos e
  simp only [Lighter, List.map_nil, List.sum_nil]
  omega

theorem Lighter.single {e : Envelope} {o : Outgoing} (h : n.Answered n')
    (hw : weight T M s' ⟨e.recipient, o.recipient, o.message⟩ < weight T M s e) :
    Lighter size T M s s' e n n' [o] := by
  have hle : potential size T M n' ≤ potential size T M n := potential_le h
  simp only [Lighter, List.map_cons, List.map_nil, List.sum_cons, List.sum_nil]
  omega

variable {now : Nat} {f : Node Disk}

theorem onRequestVote_lighter {t lastLogIndex lastLogTerm : Nat} (hans : n.Answered n')
    (hft : t ≤ f.term) (hfT : f.term ≤ T)
    (h : f.onRequestVote now j t lastLogIndex lastLogTerm = .ok (n', out)) :
    Lighter size T M s s' ⟨j, i, .requestVote t lastLogIndex lastLogTerm⟩ n n' out := by
  have hout : ∃ granted, out = [⟨j, .voteResponse f.term granted⟩] := by
    rcases Node.onRequestVote_ok h with ⟨_, rfl⟩ | ⟨_, _, _, rfl, _⟩
    · exact ⟨false, rfl⟩
    · exact ⟨true, rfl⟩
  obtain ⟨granted, rfl⟩ := hout
  apply Lighter.single hans
  rcases Nat.lt_or_eq_of_le hft with hlt | heq
  · refine weight_lt_of_later (g := ⟨i, j, .voteResponse f.term granted⟩) hlt hfT ?_
    show 1 ≤ 2 * M + 3
    omega
  · refine weight_lt_of_same (g := ⟨i, j, .voteResponse f.term granted⟩) heq.symm ?_
    show 1 < 2
    omega

/-- What a won election sends at once. -/
theorem becomeLeader_lighter {e : Envelope} (hcand : n.role = .candidate)
    (hfrole : f.log = n.log) (hfterm : f.term = n.term) (hsize : f.cfg.clusterSize = size)
    (hM : n.log.length + 1 ≤ M) (h : f.becomeLeader now = .ok (n', out)) :
    Lighter size T M s s' e n n' out := by
  obtain ⟨c, deadline, rfl, _, hout, _⟩ := Node.becomeLeader_ok h
  have heach : ∀ o ∈ out, weight T M s' ⟨e.recipient, o.recipient, o.message⟩ ≤
      (T - n.term) * (2 * M + 4) + (4 * M + 4) := by
    intro o ho
    obtain ⟨_, prevIndex, prevTerm, entries, ⟨hle, _⟩, hm⟩ := Node.broadcastAppend_ok hout o ho
    have hlen : prevIndex ≤ n.log.length + 1 := by
      simpa [Node.inaugurated, hfrole] using hle
    rw [hm]
    show (T - f.term) * (2 * M + 4) + lightness M s' _ ≤ _
    rw [hfterm]
    apply Nat.add_le_add_left
    simp only [lightness]
    split <;> omega
  have hcount : out.length ≤ size := by
    have hall := (Checked.mapM_eq_ok hout).length_eq
    rw [← hall, ← hsize]
    exact (List.length_filter_le _ _).trans_eq List.length_range
  have hsum := List.sum_le_card_nsmul
    (out.map fun o => weight T M s' ⟨e.recipient, o.recipient, o.message⟩)
    ((T - n.term) * (2 * M + 4) + (4 * M + 4)) (by simpa using heach)
  rw [List.length_map, smul_eq_mul] at hsum
  have hbound := Nat.mul_le_mul_right ((T - n.term) * (2 * M + 4) + (4 * M + 4)) hcount
  have hpos : 0 < weight T M s e := weight_pos e
  have hold : potential size T M n = size * ((T - n.term) * (2 * M + 4) + (4 * M + 4)) :=
    if_pos hcand
  have hnew : ∀ m : Node Disk, m.role = .leader → potential size T M m = 0 := by
    intro m hm
    unfold potential
    rw [if_neg (by simp [hm])]
  unfold Lighter
  rw [hold, hnew _ rfl]
  omega

/-- A follower answers an AppendEntries with a lighter message: an accepted one is followed by
its match index, and a rejected one was not known to fit and is answered by a lower hint. -/
theorem onAppendEntries_lighter {t prevIndex prevTerm leaderCommit : Nat} {entries : List Entry}
    (hcalm : Calm size T M s)
    (hsent : ⟨j, i, .appendEntries t prevIndex prevTerm entries leaderCommit⟩ ∈ s.sent)
    (hn : s.node i = some n) (hans : n.Answered n') (hflog : f.log = n.log)
    (hfterm : f.term = max n.term t) (hfT : f.term ≤ T)
    (h : f.onAppendEntries now j t prevIndex prevTerm entries leaderCommit = .ok (n', out)) :
    Lighter size T M s s' ⟨j, i, .appendEntries t prevIndex prevTerm entries leaderCommit⟩ n n'
      out := by
  rcases Node.onAppendEntries_ok h with ⟨hlt, _, rfl⟩ | ⟨hge, _, deadline, rng, hcase⟩
  · apply Lighter.single hans
    refine weight_lt_of_later (g := ⟨i, j, .appendResponse f.term false 0⟩) hlt hfT ?_
    show 2 * M + 2 + 2 * 0 + 1 ≤ 2 * M + 3
    omega
  have hsame : f.term = t := by omega
  rcases hcase with ⟨hno, _, rfl⟩ | ⟨hprev, _, m, hm, _, rfl⟩
  · have hunknown : ¬ Known s j i t prevIndex := by
      intro hknown
      apply hno
      show prevIndex ≤ f.log.length ∧ TermAt f.log prevIndex prevTerm
      rw [hflog]
      exact hcalm.has_known hsent hknown hn (by omega)
    have hpos : 0 < prevIndex := Nat.pos_of_ne_zero fun h0 => hunknown (.inl h0)
    have hhint : (if (f.following j deadline rng).lastIndex < prevIndex then
        (f.following j deadline rng).lastIndex else prevIndex - 1) < prevIndex := by
      split <;> omega
    generalize (if (f.following j deadline rng).lastIndex < prevIndex then
        (f.following j deadline rng).lastIndex else prevIndex - 1) = hint at hhint ⊢
    apply Lighter.single hans
    refine weight_lt_of_same (g := ⟨i, j, .appendResponse f.term false hint⟩) hsame ?_
    simp only [lightness, if_neg hunknown]
    omega
  · apply Lighter.single hans
    have hmterm : m.term = t := ((Node.mergeEntries_frame hprev hm).2).trans hsame
    refine weight_lt_of_same
      (g := ⟨i, j, .appendResponse m.term true (prevIndex + entries.length)⟩) hmterm ?_
    simp only [lightness]
    split <;> omega

theorem eq_of_getElem?_set {l : List Nat} {k v x : Nat} (h : (l.set k v)[k]? = some x) :
    x = v := by
  have hlt := (List.getElem?_eq_some_iff.mp h).1
  rw [List.length_set] at hlt
  rw [List.getElem?_set_self hlt] at h
  exact (Option.some.inj h).symm

/-- What a leader sends after a failed attempt starts no later than the follower's hint, or
where the follower is known to agree. -/
theorem backup_lighter {t known hint : Nat} {o : Outgoing} (old : List Nat) (next : Nat)
    (hknown : Known s' i j t known) (hterm : f.term = t)
    (hnext : f.nextIndex = old.set j (max (known + 1) (min next (hint + 1))))
    (ho : f.appendFor j = .ok o) :
    weight T M s' ⟨i, o.recipient, o.message⟩ <
      weight T M s ⟨j, i, .appendResponse t false hint⟩ := by
  obtain ⟨prevIndex, prevTerm, entries, _, rfl, ⟨next', hnext', _, hprev⟩, _⟩ :=
    Node.appendFor_ok ho
  rw [hnext] at hnext'
  obtain rfl := eq_of_getElem?_set hnext'
  refine weight_lt_of_same (e := ⟨j, i, .appendResponse t false hint⟩)
    (g := ⟨i, j, .appendEntries f.term prevIndex prevTerm entries f.commitIndex⟩) hterm ?_
  simp only [lightness]
  split
  · omega
  · next hunknown =>
    have hne : prevIndex ≠ known := by
      rintro rfl
      rw [hterm] at hunknown
      exact hunknown hknown
    omega

/-- What a leader sends after a successful attempt covers at least one more entry. -/
theorem advance_lighter {t known m : Nat} {o : Outgoing} (old : List Nat)
    (hknown : Known s' i j t (max known m)) (hterm : f.term = t) (hM : f.log.length ≤ M)
    (hbatch : 1 ≤ f.cfg.maxBatch) (hmore : max known m < f.log.length)
    (hnext : f.nextIndex = old.set j (max known m + 1)) (ho : f.appendFor j = .ok o) :
    weight T M s' ⟨i, o.recipient, o.message⟩ <
      weight T M s ⟨j, i, .appendResponse t true m⟩ := by
  obtain ⟨prevIndex, prevTerm, entries, _, rfl, ⟨next', hnext', _, hprev⟩, hlen⟩ :=
    Node.appendFor_ok ho
  rw [hnext] at hnext'
  obtain rfl := eq_of_getElem?_set hnext'
  obtain rfl : prevIndex = max known m := by omega
  refine weight_lt_of_same (e := ⟨j, i, .appendResponse t true m⟩)
    (g := ⟨i, j, .appendEntries f.term (max known m) prevTerm entries f.commitIndex⟩) hterm ?_
  rw [← hterm] at hknown
  simp only [lightness, if_pos hknown]
  omega

theorem onAppendResponse_lighter {t m : Nat} {success : Bool} (hcalm : Calm size T M s)
    (hsent : ⟨j, i, .appendResponse t success m⟩ ∈ s.sent) (hsub : s.sent ⊆ s'.sent)
    (hn : s.node i = some n) (hans : n.Answered n')
    (h : n.onAppendResponse j t success m = .ok (n', out)) :
    Lighter size T M s s' ⟨j, i, .appendResponse t success m⟩ n n' out := by
  rcases Node.onAppendResponse_ok h with ⟨_, _, rfl⟩ | ⟨hrole, rfl, known, hknown, hcase⟩
  · exact .silent hans
  obtain ⟨a, acts, hsim, _, hback⟩ := hcalm.facts
  have hknown' : Known s' i j n.term known := by
    rcases Nat.eq_zero_or_pos known with rfl | hpos
    · exact .inl rfl
    · obtain ⟨m', hle, hmem⟩ := hback.matched i n j known hn hrole hknown hpos
      exact .inr ⟨m', hle, hsub hmem⟩
  rcases hcase with ⟨rfl, hcommit, hout⟩ | ⟨rfl, next, o, _, heq, ho, rfl⟩
  · rcases hout with ⟨_, rfl⟩ | ⟨hmore, o, ho, rfl⟩
    · exact .silent hans
    obtain ⟨r, hr, _, hledger, _⟩ := (hsim.node hn).leader hrole
    have hm : m ≤ n.lastIndex := by
      have hlen := hsim.inv.ack_le_length (v := j) hr (hsim.sent _ hsent)
      rw [hledger] at hlen
      exact hlen
    rw [min_eq_left hm] at hmore hcommit
    have hmax : Known s' i j n.term (max known m) := by
      rcases le_total known m with hle | hle
      · rw [max_eq_right hle]
        exact .inr ⟨m, le_rfl, hsub hsent⟩
      · rw [max_eq_left hle]
        exact hknown'
    obtain ⟨c, heq, _⟩ := Node.advanceCommit_ok hcommit
    have hlog : n'.log = n.log := by rw [heq]; rfl
    apply Lighter.single hans
    refine advance_lighter n.nextIndex hmax ?_ ?_ ?_ ?_ ?_ ho
    · rw [heq]
      rfl
    · rw [hlog]
      exact hcalm.leader_le i n hn hrole
    · rw [heq]
      exact hcalm.batch i n hn
    · rw [hlog]
      exact hmore
    · rw [heq]
      rfl
  · apply Lighter.single hans
    refine backup_lighter n.nextIndex next hknown' ?_ ?_ ho
    · rw [heq]
    · rw [heq]

theorem onVoteResponse_lighter {t : Nat} {granted : Bool} (hcalm : Calm size T M s)
    (hn : s.node i = some n) (hans : n.Answered n') (hf : f = n ∨ f.role = .follower)
    (h : f.onVoteResponse now j t granted = .ok (n', out)) :
    Lighter size T M s s' ⟨j, i, .voteResponse t granted⟩ n n' out := by
  rcases Node.onVoteResponse_ok h with ⟨_, rfl⟩ | ⟨hrole, _, _, _, ⟨_, hl⟩ | ⟨_, rfl⟩⟩
  · exact .silent hans
  · rcases hf with rfl | hf
    · obtain ⟨a, acts, hsim, _⟩ := hcalm.facts
      have hM := hcalm.candidate_lt i f hn hrole
      exact becomeLeader_lighter (f := { f with votes := f.votes.set j true }) hrole rfl rfl
        (hsim.node hn).clusterSize hM hl
    · rw [hf] at hrole
      cases hrole
  · exact .silent hans

/-- Whatever a node of a calm cluster answers is lighter than the message it answers. -/
theorem handle_lighter {msg : Message} (hcalm : Calm size T M s) (hsent : ⟨j, i, msg⟩ ∈ s.sent)
    (hsub : s.sent ⊆ s'.sent) (hT : msg.term ≤ T) (hn : s.node i = some n)
    (h : n.handle now j msg = .ok (n', out)) : Lighter size T M s s' ⟨j, i, msg⟩ n n' out := by
  obtain ⟨_, hans⟩ := Node.handle_answered h
  rcases Node.handle_receives h with ⟨_, _, rfl⟩ | ⟨_, _, f, hr, hlog, _, hterm, hf⟩
  · exact .silent hans
  have hfT : f.term ≤ T := by
    rw [hterm]
    exact max_le (hcalm.term_le i n hn) hT
  cases msg with
  | requestVote t lastLogIndex lastLogTerm =>
    exact onRequestVote_lighter hans (by rw [hterm]; exact le_max_right _ _) hfT hr
  | voteResponse t granted =>
    exact onVoteResponse_lighter hcalm hn hans (hf.imp id And.right) hr
  | appendEntries t prevIndex prevTerm entries leaderCommit =>
    exact onAppendEntries_lighter hcalm hsent hn hans hlog hterm hfT hr
  | appendResponse t success m =>
    rcases hf with rfl | ⟨_, hrole⟩
    · exact onAppendResponse_lighter hcalm hsent hsub hn hans hr
    · rcases Node.onAppendResponse_ok hr with ⟨_, _, rfl⟩ | ⟨hlead, _⟩
      · exact .silent hans
      · rw [hrole] at hlead
        cases hlead

end

end Landsraad
