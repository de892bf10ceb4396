import Landsraad.Raft.Safety

/-!
# Log terms are ordered

Every log of a cluster, live or stored, and every batch in flight with the term before it
consists of entries that were created in the reigns of their own terms, so its terms start at
one, do not decrease and stay within the term of whatever carries it.
-/

namespace Landsraad

open ReplicatedLog ReplicatedLog.Ledger

/-- The terms along `l` are at least one, do not decrease and do not exceed `t`. -/
structure TermsUpTo (t : Nat) (l : List Entry) : Prop where
  ordered : (l.map Entry.term).Pairwise (· ≤ ·)
  pos : ∀ e ∈ l, 1 ≤ e.term
  le : ∀ e ∈ l, e.term ≤ t

/-- The entries of an AppendEntries continue the terms from its previous term, which is zero
only before the first index. -/
def Message.TermsOrdered : Message → Prop
  | .appendEntries term prevIndex prevTerm entries _ =>
    TermsUpTo term entries ∧ (prevTerm :: entries.map Entry.term).Pairwise (· ≤ ·) ∧
      prevTerm ≤ term ∧ (1 ≤ prevIndex → 1 ≤ prevTerm)
  | _ => True

section

variable {size i : Nat} {a : History} {s : System} {acts : List Action} {t : Nat}
  {l : List Entry}

theorem TermsUpTo.sublist {l' : List Entry} (h : TermsUpTo t l) (hsub : l'.Sublist l) :
    TermsUpTo t l' where
  ordered := h.ordered.sublist (hsub.map _)
  pos e he := h.pos e (hsub.mem he)
  le e he := h.le e (hsub.mem he)

theorem Sourced.termsUpTo (hinv : Inv (quorums size) a)
    (hsteps : Steps (quorums size) Ledger.initial a) (hl : a.Sourced l)
    (hle : ∀ e ∈ l, e.term ≤ t) : TermsUpTo t l where
  ordered := hl.pairwise hinv
  pos := hl.stamp_pos hinv hsteps
  le := hle

theorem DiskSim.termsUpTo (hinv : Inv (quorums size) a)
    (hsteps : Steps (quorums size) Ledger.initial a) {p : Persistent} (h : DiskSim i a p) :
    TermsUpTo p.term p.log := by
  have hl := hinv.log_sourced i
  have hle := hinv.log_stamp i
  rw [h.log] at hl hle
  rw [h.epoch] at hle
  exact Sourced.termsUpTo hinv hsteps hl hle

/-- A slice of an ordered log is ordered together with the term before it. -/
theorem IsSlice.termsOrdered {prevIndex prevTerm leaderCommit : Nat} {entries : List Entry}
    (hl : TermsUpTo t l) (h : IsSlice l prevIndex prevTerm entries) :
    (Message.appendEntries t prevIndex prevTerm entries leaderCommit).TermsOrdered := by
  obtain ⟨_, hterm, hentries⟩ := h
  have hsub : entries.Sublist l := hentries.sublist.trans (List.drop_sublist _ _)
  have hmain : (prevTerm :: entries.map Entry.term).Pairwise (· ≤ ·) ∧ prevTerm ≤ t ∧
      (1 ≤ prevIndex → 1 ≤ prevTerm) := by
    rcases hterm with ⟨rfl, rfl⟩ | ⟨hpos, e, he, rfl⟩
    · refine ⟨List.pairwise_cons.mpr ⟨fun _ _ => Nat.zero_le _, ?_⟩, Nat.zero_le _, by simp⟩
      exact (hl.sublist hsub).ordered
    · -- the previous entry and the batch are one slice of the log
      have hmem := List.mem_of_getElem? he
      have hlt := (List.getElem?_eq_some_iff.mp he).1
      have hdrop : l.drop (prevIndex - 1) = e :: l.drop prevIndex := by
        rw [List.drop_eq_getElem_cons hlt, Nat.sub_add_cancel hpos]
        rw [List.getElem?_eq_getElem hlt] at he
        rw [Option.some.inj he]
      have hcons : (e :: entries).Sublist l := by
        apply List.Sublist.trans _ (List.drop_sublist (prevIndex - 1) l)
        rw [hdrop]
        exact hentries.sublist.cons_cons e
      exact ⟨(hl.sublist hcons).ordered, hl.le e hmem, fun _ => hl.pos e hmem⟩
  exact ⟨hl.sublist hsub, hmain⟩

theorem MessageSim.termsOrdered (hinv : Inv (quorums size) a)
    (hsteps : Steps (quorums size) Ledger.initial a) {e : Envelope} (h : MessageSim size a e) :
    e.message.TermsOrdered := by
  obtain ⟨sender, recipient, message⟩ := e
  cases message with
  | appendEntries term prevIndex prevTerm entries leaderCommit =>
    obtain ⟨r, hr, _, hslice, _⟩ := h
    apply IsSlice.termsOrdered _ hslice
    apply Sourced.termsUpTo hinv hsteps (hinv.reign_sourced hr)
    intro e he
    obtain ⟨k, hk⟩ := List.mem_iff_getElem?.mp he
    exact hinv.reign_stamp_le hr hk
  | requestVote term lastLogIndex lastLogTerm => trivial
  | voteResponse term granted => trivial
  | appendResponse term success matchIndex => trivial

theorem NodeSim.leader_last {n : Node Disk} (hinv : Inv (quorums size) a) (h : NodeSim size i a n)
    (hrole : n.role = .leader) : n.log.getLast?.map Entry.term = some n.term := by
  obtain ⟨r, hr, _, hledger, _⟩ := h.leader hrole
  have hbase := (hinv.reign_bid hr).2
  rw [← hledger]
  have hlast : r.ledger.length - 1 < r.ledger.length := by omega
  rw [List.getLast?_eq_getElem?, List.getElem?_eq_getElem hlast]
  have hstamp := hinv.reign_stamp hr _ _ (List.getElem?_eq_getElem hlast) (by omega)
  exact congrArg some hstamp

/-- In every reachable cluster the terms are ordered along every live log up to the node's
term, along every stored log up to the stored term, and along every AppendEntries, from its
previous term on, up to its own term; and a leader's last entry is of its term. -/
theorem log_terms_ordered (h : System.initial.run size acts = some s) :
    (∀ i (n : Node Disk), s.node i = some n → TermsUpTo n.term n.log ∧
      (n.role = .leader → n.log.getLast?.map Entry.term = some n.term)) ∧
    (∀ i, TermsUpTo (s.slots i).disk.current.term (s.slots i).disk.current.log) ∧
    ∀ e ∈ s.sent, e.message.TermsOrdered := by
  obtain ⟨a, hsim, hsteps, _⟩ := run_simulates (.initial size) h
  refine ⟨fun i n hi => ⟨?_, (hsim.node hi).leader_last hsim.inv⟩, ?_, ?_⟩
  · have hdisk := (hsim.node hi).disk
    rw [(hsim.node hi).persisted] at hdisk
    exact hdisk.termsUpTo hsim.inv hsteps
  · exact fun i => (hsim.slot i).disk.termsUpTo hsim.inv hsteps
  · exact fun e he => (hsim.sent e he).termsOrdered hsim.inv hsteps

/-- The second leader's log spans two terms. -/
theorem log_terms_ordered_succession :
    TermsUpTo System.secondLeader.term System.secondLeader.log ∧
      System.secondLeader.log.getLast?.map Entry.term = some System.secondLeader.term := by
  have h := (log_terms_ordered (Run.exec_append_eq_some.mpr
    ⟨_, System.run_reigned, System.run_succession⟩)).1 1 _ System.node_secondLeader
  exact ⟨h.1, h.2 (by decide +kernel)⟩

end

end Landsraad
