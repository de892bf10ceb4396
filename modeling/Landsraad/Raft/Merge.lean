import Landsraad.Raft.NodeSpec

/-!
# What AppendEntries does to a log

Two logs match when entries of equal term at one index stand after the same entries. Merging
a slice of a log `G` into a log that matches `G` only ever brings it closer to `G`, whichever
slices were merged before.
-/

namespace Landsraad

open ReplicatedLog Checked

/-- Where both logs have an entry of the same term, they agree up to it. -/
def LogMatching (l l' : List Entry) : Prop :=
  ∀ i e e', l[i]? = some e → l'[i]? = some e' → e.term = e'.term → AgreeUpTo (i + 1) l l'

section

variable {F G entries : List Entry} {k j t prevIndex prevTerm : Nat}

/-- The consistency check of AppendEntries compares one term and thereby the whole prefix. -/
theorem LogMatching.agree_of_termAt (h : LogMatching F G) (hF : TermAt F k t)
    (hG : TermAt G k t) : AgreeUpTo k F G := by
  rcases hF with ⟨rfl, _⟩ | ⟨hpos, e, he, het⟩
  · exact .zero _ _
  rcases hG with ⟨rfl, _⟩ | ⟨_, e', he', het'⟩
  · exact .zero _ _
  have hag := h _ _ _ he he' (het.trans het'.symm)
  rwa [Nat.sub_add_cancel hpos] at hag

theorem LogMatching.agree_of_sameTerms (h : LogMatching F G) (hk : AgreeUpTo k F G)
    (hs : Node.SameTerms F k entries) (hp : entries <+: G.drop k) :
    AgreeUpTo (k + entries.length) F G := by
  by_cases hnil : entries = []
  · subst hnil
    exact hk
  have hpos := List.length_pos_iff.mpr hnil
  have hlast : entries[entries.length - 1]? = some (entries[entries.length - 1]) :=
    List.getElem?_eq_getElem (by omega)
  obtain ⟨e, he, het⟩ := hs _ _ hlast
  have he' : G[k + (entries.length - 1)]? = some (entries[entries.length - 1]) := by
    rw [← List.getElem?_drop, ← (AgreeUpTo.of_isPrefix hp le_rfl).getElem?_eq (by omega), hlast]
  have hag := h _ _ _ he he' het
  have hlen : k + (entries.length - 1) + 1 = k + entries.length := by omega
  rwa [hlen] at hag

theorem LogMatching.of_isPrefix (h : F <+: G) : LogMatching F G := by
  intro i e e' he _ _
  have hlt := (List.getElem?_eq_some_iff.mp he).1
  exact .of_isPrefix h hlt

/-- Replacing the tail from the first conflict on gives a prefix of the other log. -/
theorem take_append_eq_take (hag : AgreeUpTo (k + j) F G) (hp : entries <+: G.drop k)
    (hj : j ≤ entries.length) : F.take (k + j) ++ entries.drop j = G.take (k + entries.length) := by
  have hall : entries = (G.drop k).take entries.length := List.prefix_iff_eq_take.mp hp
  have hfirst : entries.take j = (G.drop k).take j := by
    rw [hall, List.take_take, min_eq_left hj]
  rw [hag.take_eq, List.take_add, ← hfirst, List.append_assoc, List.take_append_drop,
    List.take_add, ← hall]

theorem IsSlice.end_le (h : IsSlice G prevIndex prevTerm entries) :
    prevIndex + entries.length ≤ G.length := by
  obtain ⟨hle, _, hp⟩ := h
  have hlen := hp.length_le
  rw [List.length_drop] at hlen
  omega

theorem IsSlice.getElem? (h : IsSlice G prevIndex prevTerm entries) (hj : j < entries.length) :
    G[prevIndex + j]? = entries[j]? := by
  rw [← List.getElem?_drop]
  exact ((AgreeUpTo.of_isPrefix h.2.2 le_rfl).getElem?_eq hj).symm

/-- At some index covered by `entries` the log has an entry of another term. -/
def Conflicts (F : List Entry) (prevIndex : Nat) (entries : List Entry) : Prop :=
  ∃ j e e', F[prevIndex + j]? = some e ∧ entries[j]? = some e' ∧ e.term ≠ e'.term

/-- `F'` is what merging `entries`, a slice of `G` after `prevIndex`, may make of `F`. -/
structure Merged (F G : List Entry) (prevIndex : Nat) (entries F' : List Entry) : Prop where
  agree : max (commonPrefix F G) (prevIndex + entries.length) ≤ commonPrefix F' G
  matching : LogMatching F' G
  removes : ¬ F <+: F' → Conflicts F prevIndex entries
  keeps : ¬ Conflicts F prevIndex entries → F' =
    if prevIndex + entries.length ≤ F.length then F
    else F ++ entries.drop (F.length - prevIndex)

/-- The log already has the terms of all the entries. -/
theorem Merged.of_sameTerms (hmatch : LogMatching F G)
    (hslice : IsSlice G prevIndex prevTerm entries) (hprev : AgreeUpTo prevIndex F G)
    (hs : Node.SameTerms F prevIndex entries) : Merged F G prevIndex entries F := by
  have hag := hmatch.agree_of_sameTerms hprev hs hslice.2.2
  refine ⟨max_le le_rfl (le_commonPrefix_iff.mpr hag), hmatch, ?_, ?_⟩
  · exact fun hno => absurd List.prefix_rfl hno
  · intro _
    rw [if_pos hag.1]

/-- From the `j`-th entry on the slice was written, in place of a conflicting tail or at the end
of the log. -/
theorem Merged.of_spliced {e : Entry} (hmatch : LogMatching F G)
    (hslice : IsSlice G prevIndex prevTerm entries) (hprev : AgreeUpTo prevIndex F G)
    (he : entries[j]? = some e) (hs : Node.SameTerms F prevIndex (entries.take j))
    (hle : prevIndex + j ≤ F.length)
    (hne : ∀ e', F[prevIndex + j]? = some e' → e'.term ≠ e.term) :
    Merged F G prevIndex entries (F.take (prevIndex + j) ++ entries.drop j) := by
  have hj := (List.getElem?_eq_some_iff.mp he).1
  have hag := hmatch.agree_of_sameTerms hprev hs ((List.take_prefix j _).trans hslice.2.2)
  rw [List.length_take, min_eq_left hj.le] at hag
  have heq := take_append_eq_take hag hslice.2.2 hj.le
  have hfull : AgreeUpTo (prevIndex + entries.length) (G.take (prevIndex + entries.length)) G :=
    (AgreeUpTo.refl hslice.end_le).take_left le_rfl
  have hends : ¬ Conflicts F prevIndex entries → F.length = prevIndex + j := by
    intro hno
    apply le_antisymm _ hle
    by_contra hlt
    have hx := List.getElem?_eq_getElem (Nat.lt_of_not_le hlt)
    exact hno ⟨j, _, e, hx, he, hne _ hx⟩
  refine ⟨?_, ?_, ?_, ?_⟩
  · rw [heq]
    apply max_le _ (le_commonPrefix_iff.mpr hfull)
    -- the old common prefix ends at the first conflict
    have hold : commonPrefix F G ≤ prevIndex + j := by
      by_contra hlt
      have hpast : AgreeUpTo (prevIndex + j + 1) F G :=
        le_commonPrefix_iff.mp (Nat.lt_of_not_le hlt)
      have hx := hpast.getElem?_eq (Nat.lt_succ_self _)
      rw [hslice.getElem? hj, he] at hx
      exact hne e hx rfl
    exact le_commonPrefix_iff.mpr (hfull.mono (by omega))
  · rw [heq]
    exact .of_isPrefix (List.take_prefix _ _)
  · intro hno
    by_contra hfree
    apply hno
    rw [List.take_of_length_le (hends hfree).le]
    exact List.prefix_append _ _
  · intro hfree
    have hlen := hends hfree
    rw [if_neg (by omega), List.take_of_length_le hlen.le]
    congr 2
    omega

end

namespace Node

variable {n n' n₁ n₂ : Node Disk} {now : Nat} {out : List Outgoing} {G entries : List Entry}
  {prevIndex prevTerm sender term leaderCommit : Nat}

theorem mergeEntries_merged (hmatch : LogMatching n.log G)
    (hslice : IsSlice G prevIndex prevTerm entries) (hprev : AgreeUpTo prevIndex n.log G)
    (h : n.mergeEntries prevIndex 0 entries = .ok n') :
    Merged n.log G prevIndex entries n'.log := by
  rcases mergeEntries_ok hprev.1 h with ⟨rfl, hs⟩ | ⟨j, e, he, hs, hle, hne, rfl⟩
  · exact .of_sameTerms hmatch hslice hprev hs
  · rw [spliced_log]
    exact .of_spliced hmatch hslice hprev he hs hle hne

/-- Merging a slice that the log already agrees with writes nothing. -/
theorem mergeEntries_agreed (hslice : IsSlice G prevIndex prevTerm entries)
    (hag : AgreeUpTo (prevIndex + entries.length) n.log G)
    (h : n.mergeEntries prevIndex 0 entries = .ok n') : n' = n := by
  have hle : prevIndex + 0 ≤ n.log.length := (Nat.le_add_right _ _).trans hag.1
  rcases mergeEntries_ok hle h with ⟨rfl, _⟩ | ⟨j, e, he, _, _, hne, _⟩
  · rfl
  · have hj := (List.getElem?_eq_some_iff.mp he).1
    have hx := hag.getElem?_eq (i := prevIndex + j) (by omega)
    rw [hslice.getElem? hj, he] at hx
    exact absurd rfl (hne e hx)

@[simp] theorem committing_log {matched : Nat} :
    (n.committing leaderCommit matched).log = n.log := by
  unfold committing
  split <;> rfl

@[simp] theorem committing_storage {matched : Nat} :
    (n.committing leaderCommit matched).storage = n.storage := by
  unfold committing
  split <;> rfl

@[simp] theorem committing_role {matched : Nat} :
    (n.committing leaderCommit matched).role = n.role := by
  unfold committing
  split <;> rfl

@[simp] theorem committing_term {matched : Nat} :
    (n.committing leaderCommit matched).term = n.term := by
  unfold committing
  split <;> rfl

@[simp] theorem committing_cfg {matched : Nat} :
    (n.committing leaderCommit matched).cfg = n.cfg := by
  unfold committing
  split <;> rfl

theorem mergeEntries_cfg (hle : prevIndex ≤ n.log.length)
    (h : n.mergeEntries prevIndex 0 entries = .ok n') : n'.cfg = n.cfg := by
  rcases mergeEntries_ok hle h with ⟨rfl, _⟩ | ⟨j, e, _, _, _, _, rfl⟩
  · rfl
  · unfold spliced
    split <;> rfl

theorem mergeEntries_frame (hle : prevIndex ≤ n.log.length)
    (h : n.mergeEntries prevIndex 0 entries = .ok n') : n'.role = n.role ∧ n'.term = n.term := by
  rcases mergeEntries_ok hle h with ⟨rfl, _⟩ | ⟨j, e, _, _, _, _, rfl⟩
  · exact ⟨rfl, rfl⟩
  · exact ⟨spliced_role, spliced_term⟩

/-- Some message of `out` is a successful AppendResponse. -/
def Accepting (out : List Outgoing) : Prop :=
  ∃ o ∈ out, ∃ t m, o.message = .appendResponse t true m

theorem accepting_singleton {p t m : Nat} {success : Bool} :
    Accepting [⟨p, .appendResponse t success m⟩] ↔ success = true := by
  simp [Accepting]

/-- An AppendEntries is accepted by the consistency check alone. -/
theorem onAppendEntries_accepts
    (h : n.onAppendEntries now sender term prevIndex prevTerm entries leaderCommit =
      .ok (n', out)) :
    (¬ Accepting out ∧ n'.log = n.log ∧ n'.storage = n.storage ∧
        (n.term ≤ term → ¬ (prevIndex ≤ n.log.length ∧ TermAt n.log prevIndex prevTerm))) ∨
      (Accepting out ∧ n.term ≤ term ∧ prevIndex ≤ n.log.length ∧
        TermAt n.log prevIndex prevTerm ∧ ∃ f m : Node Disk, f.log = n.log ∧ f.storage = n.storage ∧
          f.term = n.term ∧ f.role = .follower ∧ f.mergeEntries prevIndex 0 entries = .ok m ∧
          n' = m.committing leaderCommit (prevIndex + entries.length)) := by
  rcases onAppendEntries_ok h with ⟨hlt, rfl, rfl⟩ | ⟨hle, _, deadline, rng, hcase⟩
  · left
    refine ⟨by simp [accepting_singleton], rfl, rfl, fun hle => ?_⟩
    exact absurd hle (Nat.not_le.mpr hlt)
  rcases hcase with ⟨hno, rfl, rfl⟩ | ⟨hprev, hterm, m, hm, rfl, rfl⟩
  · exact .inl ⟨by simp [accepting_singleton], rfl, rfl, fun _ => hno⟩
  · exact .inr ⟨by simp [accepting_singleton], hle, hprev, hterm,
      n.following sender deadline rng, m, rfl, rfl, rfl, rfl, hm, rfl⟩

/-! ## The merge law -/

/-- One more AppendEntries with a slice of `G` was accepted. -/
def AcceptsSlice (G : List Entry) (n n' : Node Disk) : Prop :=
  ∃ now sender term prevIndex prevTerm entries leaderCommit out,
    IsSlice G prevIndex prevTerm entries ∧ Accepting out ∧
    n.handle now sender (.appendEntries term prevIndex prevTerm entries leaderCommit) =
      .ok (n', out)

/-- What an accepted AppendEntries with a slice of `G` leaves behind. -/
structure Follows (G : List Entry) (term covered : Nat) (n : Node Disk) : Prop where
  role : n.role ≠ .leader
  term_le : term ≤ n.term
  matching : LogMatching n.log G
  agree : AgreeUpTo covered n.log G

theorem handle_accepts (hmatch : LogMatching n.log G)
    (hslice : IsSlice G prevIndex prevTerm entries) (hacc : Accepting out)
    (h : n.handle now sender (.appendEntries term prevIndex prevTerm entries leaderCommit) =
      .ok (n', out)) :
    n.term ≤ term ∧ n'.term = term ∧ n'.role = .follower ∧
      Merged n.log G prevIndex entries n'.log := by
  rcases handle_receives h with ⟨_, _, rfl⟩ | ⟨_, _, f, hr, hlog, _, hterm, hf⟩
  · obtain ⟨o, ho, _⟩ := hacc
    simp at ho
  rcases onAppendEntries_accepts hr with ⟨hno, _⟩ |
    ⟨_, hle, hprev, hat, g, m, hglog, _, hgterm, hgrole, hm, rfl⟩
  · exact absurd hacc hno
  rw [hlog] at hprev hat hglog
  rw [hterm] at hle hgterm
  have hagree := hmatch.agree_of_termAt hat hslice.2.1
  rw [← hglog] at hmatch hprev hagree
  obtain ⟨hrole, hmterm⟩ := mergeEntries_frame hprev hm
  have hmerged := mergeEntries_merged hmatch hslice hagree hm
  rw [hglog] at hmerged
  refine ⟨(le_max_left _ _).trans hle, ?_, ?_, ?_⟩
  · rw [committing_term, hmterm, hgterm]
    exact le_antisymm hle (le_max_right _ _)
  · rw [committing_role, hrole, hgrole]
  · rw [committing_log]
    exact hmerged

theorem Follows.accepts {covered : Nat} (h : Follows G term covered n)
    (hs : AcceptsSlice G n n') : Follows G term covered n' := by
  obtain ⟨now, sender, t, prevIndex, prevTerm, entries, leaderCommit, out, hslice, hacc, hh⟩ := hs
  obtain ⟨hle, hterm, hrole, hmerged⟩ := handle_accepts h.matching hslice hacc hh
  have hold : covered ≤ commonPrefix n.log G := le_commonPrefix_iff.mpr h.agree
  exact
    { role := by simp [hrole]
      term_le := by
        rw [hterm]
        exact h.term_le.trans hle
      matching := hmerged.matching
      agree := le_commonPrefix_iff.mp (hold.trans ((le_max_left _ _).trans hmerged.agree)) }

theorem Follows.accepts_all {covered : Nat} (h : Follows G term covered n)
    (hs : Relation.ReflTransGen (AcceptsSlice G) n n') : Follows G term covered n' := by
  induction hs with
  | refl => exact h
  | tail _ hs ih => exact ih.accepts hs

/-- A message whose slice the log already agrees with changes nothing that is stored. -/
theorem Follows.handle_again (h : Follows G term (prevIndex + entries.length) n)
    (hslice : IsSlice G prevIndex prevTerm entries)
    (hh : n.handle now sender (.appendEntries term prevIndex prevTerm entries leaderCommit) =
      .ok (n', out)) : n'.log = n.log ∧ n'.storage = n.storage := by
  rcases handle_receives hh with ⟨_, rfl, _⟩ | ⟨_, _, f, hr, _, _, _, hf⟩
  · exact ⟨rfl, rfl⟩
  rcases hf with rfl | ⟨hlt, _⟩
  · rcases onAppendEntries_accepts hr with ⟨_, hlog, hstorage, _⟩ |
      ⟨_, _, _, _, g, m, hglog, hgstorage, _, _, hm, rfl⟩
    · exact ⟨hlog, hstorage⟩
    · have hag := h.agree
      rw [← hglog] at hag
      rw [mergeEntries_agreed hslice hag hm, committing_log, committing_storage]
      exact ⟨hglog, hgstorage⟩
  · exact absurd h.term_le (Nat.not_le.mpr hlt)

/-- An AppendEntries of a term not below the follower's, whose entries are a slice of a log `G`
that the follower's log matches, is accepted exactly when the follower has the entry before the
slice; an accepted one merges the slice into the log, and is without effect when it arrives
again, at once or after other slices of `G`. -/
theorem append_entries_merge_law (hmatch : LogMatching n.log G)
    (hslice : IsSlice G prevIndex prevTerm entries) (hterm : n.term ≤ term)
    (hpeer : sender ≠ n.cfg.id ∧ sender < n.cfg.clusterSize)
    (h : n.handle now sender (.appendEntries term prevIndex prevTerm entries leaderCommit) =
      .ok (n', out)) :
    (Accepting out ↔ prevIndex ≤ n.log.length ∧ TermAt n.log prevIndex prevTerm) ∧
      (¬ Accepting out → n'.log = n.log) ∧
      (Accepting out → Merged n.log G prevIndex entries n'.log ∧
        ∀ n₁ n₂ now' out', Relation.ReflTransGen (AcceptsSlice G) n' n₁ →
          n₁.handle now' sender (.appendEntries term prevIndex prevTerm entries leaderCommit) =
            .ok (n₂, out') → n₂.log = n₁.log ∧ n₂.storage = n₁.storage) := by
  refine ⟨?_, ?_, ?_⟩
  · rcases handle_receives h with ⟨hignored, _⟩ | ⟨_, _, f, hr, hlog, _, hfterm, _⟩
    · omega
    rw [← hlog]
    rcases onAppendEntries_accepts hr with ⟨hno, _, _, hcheck⟩ | ⟨hacc, _, hprev, hat, _⟩
    · refine iff_of_false hno (hcheck ?_)
      rw [hfterm]
      exact max_le hterm le_rfl
    · exact iff_of_true hacc ⟨hprev, hat⟩
  · intro hno
    rcases handle_receives h with ⟨_, rfl, _⟩ | ⟨_, _, f, hr, hlog, _⟩
    · rfl
    rcases onAppendEntries_accepts hr with ⟨_, hkept, _⟩ | ⟨hacc, _⟩
    · exact hkept.trans hlog
    · exact absurd hacc hno
  · intro hacc
    obtain ⟨_, hterm', hrole, hmerged⟩ := handle_accepts hmatch hslice hacc h
    refine ⟨hmerged, fun n₁ n₂ now' out' hfurther hagain => ?_⟩
    have hstart : Follows G term (prevIndex + entries.length) n' :=
      { role := by simp [hrole]
        term_le := hterm'.ge
        matching := hmerged.matching
        agree := le_commonPrefix_iff.mp ((le_max_right _ _).trans hmerged.agree) }
    exact (hstart.accepts_all hfurther).handle_again hslice hagain

/-- A follower whose second entry comes from a leader that was replaced. -/
def overtaken : Node Disk :=
  fresh ⟨1, 3, (1, 1), 1, 1, 0⟩ ⟨⟨1, none, [⟨1, []⟩, ⟨1, [9]⟩]⟩, []⟩ 1 0

theorem overtaken_matching : LogMatching overtaken.log [⟨1, []⟩, ⟨2, []⟩] := by
  intro i e e' he he' hterm
  match i with
  | 0 => exact ⟨by decide, by decide, fun j hj => by rw [Nat.lt_one_iff.mp hj]; rfl⟩
  | 1 =>
    cases he
    cases he'
    cases hterm
  | i + 2 => cases he

theorem append_entries_merge_law_overtaken :
    ∃ n' out, overtaken.handle 1 0 (.appendEntries 2 1 1 [⟨2, []⟩] 0) = .ok (n', out) ∧
      Merged overtaken.log [⟨1, []⟩, ⟨2, []⟩] 1 [⟨2, []⟩] n'.log := by
  have h := eq_ok_get (x := overtaken.handle 1 0 (.appendEntries 2 1 1 [⟨2, []⟩] 0))
    (by decide +kernel)
  have hat : TermAt [⟨1, []⟩, ⟨2, []⟩] 1 1 := .inr ⟨Nat.one_pos, _, rfl, rfl⟩
  have hlaw := append_entries_merge_law overtaken_matching
    ⟨by decide, hat, by decide⟩ (by decide) (by decide) h
  refine ⟨_, _, h, (hlaw.2.2 (hlaw.1.mpr ⟨by decide, .inr ⟨Nat.one_pos, _, rfl, rfl⟩⟩)).1⟩

end Node

end Landsraad
