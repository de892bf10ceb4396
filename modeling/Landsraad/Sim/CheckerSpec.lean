import Landsraad.Raft.Safety
import Landsraad.Sim.ClusterRefinement

/-!
# What the invariant checker reports

The books of the checker are related to the ledger by `Bookkept`. Under it the checks of terms,
of committed prefixes and of log matching never report a violation, and the check of leaders
reports exactly a leader whose log lacks a committed entry of an earlier term.
-/

namespace Landsraad

open ReplicatedLog ReplicatedLog.Ledger Cluster

/-- What the checker remembers is true of the history: leaders led, terms were reached, and
committed entries are committed. -/
structure Bookkept (a : History) (b : Books) : Prop where
  leaders : ∀ t i, b.leadersByTerm t = some i → ∃ r, a.reign t = some r ∧ r.leader = i
  terms : ∀ i, b.maxTermSeen i ≤ a.epoch i
  commits : ∀ i, a.Certified (quorums b.size) (a.epoch i) (a.log i) (b.maxCommitSeen i)
  committed : ∃ t, a.Certified (quorums b.size) t b.committed b.committed.length

theorem Bookkept.steps {a a' : History} {b : Books} (h : Bookkept a b)
    (hinv : Inv (quorums b.size) a) (hs : Steps (quorums b.size) a a') : Bookkept a' b where
  leaders t i ht := by
    obtain ⟨r, hr, rfl⟩ := h.leaders t i ht
    obtain ⟨r', hr', hlead, _⟩ := (hs.extends hinv).reign hr
    exact ⟨r', hr', hlead⟩
  terms i := (h.terms i).trans ((hs.extends hinv).epoch i)
  commits i := (h.commits i).steps hinv hs
  committed := by
    obtain ⟨t, ht⟩ := h.committed
    exact ⟨t, ht.mono (hs.extends hinv) le_rfl⟩

/-- The two clusters differ in the books of the checker at most. -/
structure SameNodes {χ : Type} (c c' : Cluster χ) : Prop where
  cfg : c'.cfg = c.cfg
  nodes : c'.nodes = c.nodes
  disks : c'.disks = c.disks
  links : c'.links = c.links

variable {χ : Type} {a : History} {c c' : Cluster χ} {i : Nat} {ids : List Nat}

theorem SameNodes.refl (c : Cluster χ) : SameNodes c c := ⟨rfl, rfl, rfl, rfl⟩

theorem SameNodes.trans {c'' : Cluster χ} (h : SameNodes c c') (h' : SameNodes c' c'') :
    SameNodes c c'' :=
  ⟨h'.cfg.trans h.cfg, h'.nodes.trans h.nodes, h'.disks.trans h.disks, h'.links.trans h.links⟩

theorem Mirrors.same [Channel χ] {carried : χ → List UInt8 → Prop} {s : System}
    (h : Mirrors carried c s) (hs : SameNodes c c') : Mirrors carried c' s := by
  refine ⟨?_, fun p q b m hb => h.sent p q b m (by rwa [hs.links] at hb), h.fits⟩
  rw [h.slots]
  funext j
  simp only [Cluster.slot, hs.nodes, hs.disks]

/-- The history, the live nodes and the books of a cluster fit together. -/
structure Checkable (a : History) (c : Cluster χ) : Prop where
  inv : Inv (quorums c.cfg.n) a
  live : ∀ i n, c.nodes i = some n → NodeSim c.cfg.n i a n
  books : Bookkept a c.books

theorem Checkable.same (h : Checkable a c) (hs : SameNodes c c') (hb : Bookkept a c'.books) :
    Checkable a c' := by
  refine ⟨?_, fun i n hn => ?_, hb⟩
  · rw [hs.cfg]
    exact h.inv
  · rw [hs.cfg]
    rw [hs.nodes] at hn
    exact h.live i n hn

/-- A check that passes for each node from every cluster of the family `I`, and there brings
about `Q` for that node for good, passes for all nodes together. -/
theorem eachNode_ok {check : Nat → Cluster χ → Checkpoint χ} {I : Cluster χ → Prop}
    {Q : Nat → Cluster χ → Prop}
    (h : ∀ i ∈ ids, ∀ c, I c → ∃ c', check i c = (c', .ok ()) ∧ I c' ∧ Q i c' ∧
      ∀ j, Q j c → Q j c') (hc : I c) :
    ∃ c', eachNode check ids c = (c', .ok ()) ∧ I c' ∧ (∀ i ∈ ids, Q i c') ∧
      ∀ j, Q j c → Q j c' := by
  induction ids generalizing c with
  | nil => exact ⟨c, rfl, hc, by simp, fun _ hq => hq⟩
  | cons i is ih =>
    obtain ⟨c₁, hcheck, h₁, hq, hstay⟩ := h i List.mem_cons_self c hc
    obtain ⟨c₂, heach, h₂, hall, hstay'⟩ :=
      ih (fun j hj => h j (List.mem_cons_of_mem _ hj)) h₁
    refine ⟨c₂, by simp only [eachNode, hcheck, heach], h₂, ?_, fun j hj => hstay' j (hstay j hj)⟩
    intro j hj
    rcases List.mem_cons.mp hj with rfl | hj
    · exact hstay' j hq
    · exact hall j hj

theorem eachNode_fst {check : Nat → Cluster χ → Checkpoint χ} (h : ∀ i, (check i c).1 = c) :
    (eachNode check ids c).1 = c := by
  induction ids with
  | nil => rfl
  | cons i is ih =>
    obtain ⟨r, hr⟩ : ∃ r, check i c = (c, r) := ⟨_, Prod.ext (h i) rfl⟩
    cases r with
    | ok u => simpa only [eachNode, hr] using ih
    | error v => simp only [eachNode, hr]

/-- A check without effect passes for all nodes if and only if it passes for each. -/
theorem eachNode_ok_iff {check : Nat → Cluster χ → Checkpoint χ}
    (h : ∀ i, (check i c).1 = c) :
    eachNode check ids c = (c, .ok ()) ↔ ∀ i ∈ ids, check i c = (c, .ok ()) := by
  induction ids with
  | nil => simp [eachNode]
  | cons i is ih =>
    obtain ⟨r, hr⟩ : ∃ r, check i c = (c, r) := ⟨_, Prod.ext (h i) rfl⟩
    rw [List.forall_mem_cons, ← ih]
    cases r with
    | ok u => simp [eachNode, hr]
    | error v => simp [eachNode, hr]

/-! ## Terms and leaders -/

theorem checkTerm_ok (h : Checkable a c) (i : Nat) : ∃ c', checkTerm i c = (c', .ok ()) ∧
    SameNodes c c' ∧ c'.committed = c.committed ∧ Checkable a c' := by
  unfold checkTerm
  split
  · exact ⟨c, rfl, .refl c, rfl, h⟩
  next n hn =>
  have hnode := h.live i n hn
  have hterm : c.maxTermSeen i ≤ n.term := hnode.epoch ▸ h.books.terms i
  rw [if_neg (Nat.not_lt.mpr hterm)]
  have hterms : ∀ j, Function.update c.maxTermSeen i n.term j ≤ a.epoch j := by
    intro j
    by_cases hj : j = i
    · subst hj
      rw [Function.update_self, hnode.epoch]
    · rw [Function.update_of_ne hj]
      exact h.books.terms j
  split
  · next hrole =>
    obtain ⟨r, hr, hlead, _⟩ := hnode.leader hrole
    have hprev : (c.leadersByTerm n.term).getD i = i := by
      cases hl : c.leadersByTerm n.term with
      | none => rfl
      | some j =>
        obtain ⟨r', hr', hlead'⟩ := h.books.leaders n.term j hl
        rw [hr] at hr'
        cases hr'
        exact hlead'.symm.trans hlead
    simp only [hprev, ne_eq, not_true_eq_false, if_false]
    refine ⟨_, rfl, ⟨rfl, rfl, rfl, rfl⟩, rfl, h.same ⟨rfl, rfl, rfl, rfl⟩
      { h.books with leaders := ?_, terms := hterms }⟩
    intro t j hj
    by_cases ht : t = n.term
    · subst ht
      simp only [books, Function.update_self, Option.some.injEq] at hj
      exact ⟨r, hr, hlead.trans hj⟩
    · simp only [books, Function.update_of_ne ht] at hj
      exact h.books.leaders t j hj
  · exact ⟨_, rfl, ⟨rfl, rfl, rfl, rfl⟩, rfl, h.same ⟨rfl, rfl, rfl, rfl⟩
      { h.books with terms := hterms }⟩

/-! ## Committed entries -/

/-- Merging a comparable list gives the longer of the two. -/
theorem mergeCommitted_ok {committed l l' : List Entry} {k : Nat} (hk : l.length = k)
    (hle : k ≤ committed.length) (h : committed <+: l ++ l' ∨ l ++ l' <+: committed) :
    ∃ m, mergeCommitted committed k l' = .ok m ∧ committed <+: m ∧ l ++ l' <+: m ∧
      (m = committed ∨ m = l ++ l') := by
  induction l' generalizing committed l k with
  | nil =>
    rw [List.append_nil] at h ⊢
    refine ⟨committed, rfl, List.prefix_rfl, ?_, .inl rfl⟩
    rcases h with h | h
    · rw [h.eq_of_length (by have := h.length_le; omega)]
    · exact h
  | cons e rest ih =>
    have hassoc : l ++ e :: rest = (l ++ [e]) ++ rest := by simp
    unfold mergeCommitted
    split
    · next x hx =>
      have hlt := (List.getElem?_eq_some_iff.mp hx).1
      have he : (l ++ e :: rest)[k]? = some e := by
        subst hk
        simp
      have hxe : x = e := by
        rcases h with h | h
        · rw [(AgreeUpTo.of_isPrefix h le_rfl).getElem?_eq hlt, he] at hx
          exact (Option.some.inj hx).symm
        · rw [← (AgreeUpTo.of_isPrefix h le_rfl).getElem?_eq
            (List.getElem?_eq_some_iff.mp he).1, he] at hx
          exact (Option.some.inj hx).symm
      rw [if_neg (not_not.mpr hxe)]
      rw [hassoc] at h ⊢
      exact ih (by simp [hk]) hlt h
    · next hx =>
      have hlen : committed.length = k :=
        le_antisymm (List.getElem?_eq_none_iff.mp hx) hle
      have hcl : committed = l := by
        rcases h with h | h
        · exact (List.prefix_of_prefix_length_le h (List.prefix_append _ _) (by omega)).eq_of_length
            (by omega)
        · have := h.length_le
          rw [List.length_append, List.length_cons] at this
          omega
      subst hcl
      rw [hassoc]
      obtain ⟨m, hm, hp, hp', hcase⟩ := @ih (committed ++ [e]) (committed ++ [e]) (k + 1)
        (by simp [hk]) (by simp [hk]) (.inl (List.prefix_append _ _))
      refine ⟨m, hm, (List.prefix_append _ _).trans hp, hp', .inr ?_⟩
      rcases hcase with rfl | rfl
      · exact (hp'.eq_of_length_le (List.prefix_append _ _).length_le).symm
      · rfl

theorem comparable_of_agree {l l' : List Entry}
    (h : AgreeUpTo (min l.length l'.length) l l') : l <+: l' ∨ l' <+: l := by
  rcases Nat.le_total l.length l'.length with hle | hle
  · rw [Nat.min_eq_left hle] at h
    exact .inl (agreeUpTo_length_iff.mp h)
  · rw [Nat.min_eq_right hle] at h
    exact .inr (agreeUpTo_length_iff.mp h.symm)

/-- What a live node has committed, and what the checker has seen, are comparable. -/
theorem Checkable.comparable (h : Checkable a c) {n : Node Disk} (hn : c.nodes i = some n) :
    c.committed <+: n.log.take n.commitIndex ∨ n.log.take n.commitIndex <+: c.committed := by
  have hcommit := (h.live i n hn).commit
  obtain ⟨t, ht⟩ := h.books.committed
  apply comparable_of_agree
  have hlen : (n.log.take n.commitIndex).length = n.commitIndex := by
    rw [List.length_take, min_eq_left hcommit.le_length]
  rw [hlen]
  exact ((ht.agree h.inv hcommit (min_le_left _ _) (min_le_right _ _)).symm.take_left
    (min_le_right _ _)).symm

theorem checkCommitted_ok (h : Checkable a c) (i : Nat) :
    ∃ c', checkCommitted i c = (c', .ok ()) ∧ SameNodes c c' ∧ Checkable a c' ∧
      c.committed <+: c'.committed ∧
      (∀ n, c.nodes i = some n → n.log.take n.commitIndex <+: c'.committed) ∧
      ∀ k e, c'.committed[k]? = some e → c.committed[k]? = some e ∨
        ∃ n, c.nodes i = some n ∧ k < n.commitIndex ∧ n.log[k]? = some e := by
  unfold checkCommitted
  split
  · next hn =>
    exact ⟨c, rfl, .refl c, h, List.prefix_rfl, by simp [hn], fun k e he => .inl he⟩
  next n hn =>
  have hnode := h.live i n hn
  have hcommit := hnode.commit
  rw [if_neg (Nat.not_lt.mpr hcommit.le_length)]
  obtain ⟨m, hm, hp, hp', hcase⟩ := @mergeCommitted_ok c.committed [] _ 0 rfl (Nat.zero_le _)
    (h.comparable hn)
  rw [List.nil_append] at hp' hcase
  simp only [hm]
  refine ⟨_, rfl, ⟨rfl, rfl, rfl, rfl⟩, h.same ⟨rfl, rfl, rfl, rfl⟩
    { h.books with commits := ?_, committed := ?_ }, hp, ?_, ?_⟩
  · intro j
    by_cases hj : j = i
    · subst hj
      simp only [books, Function.update_self]
      rcases Nat.le_total (c.maxCommitSeen j) n.commitIndex with hle | hle
      · rw [max_eq_right hle, hnode.epoch, hnode.log]
        exact hcommit
      · rw [max_eq_left hle]
        exact h.books.commits j
    · simp only [books, Function.update_of_ne hj]
      exact h.books.commits j
  · rcases hcase with rfl | rfl
    · exact h.books.committed
    · refine ⟨n.term, ?_⟩
      simp only [books, List.length_take, min_eq_left hcommit.le_length]
      exact hcommit.of_agree ((AgreeUpTo.refl hcommit.le_length).take_left le_rfl) le_rfl
  · intro n' hn'
    rw [hn] at hn'
    cases hn'
    exact hp'
  · intro k e he
    rcases hcase with rfl | rfl
    · exact .inl he
    · have hlt : k < n.commitIndex := by
        have := (List.getElem?_eq_some_iff.mp he).1
        rw [List.length_take] at this
        omega
      exact .inr ⟨n, hn, hlt, by rwa [List.getElem?_take_of_lt hlt] at he⟩

/-! ## Leaders -/

/-- No entry is reported as lacking if and only if the log holds every entry that only entries
of earlier terms precede. -/
theorem lacking_eq_none_iff {term k : Nat} {log entries : List Entry} :
    lacking term log k entries = none ↔ ∀ j e, entries[j]? = some e →
      (∀ x ∈ entries.take (j + 1), x.term < term) → log[k + j]? = some e := by
  induction entries generalizing k with
  | nil => simp [lacking]
  | cons e rest ih =>
    unfold lacking
    split
    · next hge =>
      refine iff_of_true rfl fun j x _ hall => ?_
      exact absurd (hall e (by simp)) (Nat.not_lt.mpr hge)
    next hlt =>
    split
    · next hne =>
      refine iff_of_false (by simp) fun hall => hne ?_
      simpa using hall 0 e rfl (by simpa using Nat.lt_of_not_le hlt)
    next hhas =>
    rw [ih]
    constructor
    · intro hall j x hx hterms
      cases j with
      | zero =>
        cases hx
        exact not_not.mp hhas
      | succ j =>
        have := hall j x hx fun y hy => hterms y (by
          rw [List.take_succ_cons]
          exact List.mem_cons_of_mem _ hy)
        rwa [Nat.add_right_comm, Nat.add_assoc] at this
    · intro hall j x hx hterms
      have := hall (j + 1) x hx (by
        intro y hy
        rw [List.take_succ_cons] at hy
        rcases List.mem_cons.mp hy with rfl | hy
        · exact Nat.lt_of_not_le hlt
        · exact hterms y hy)
      rwa [Nat.add_right_comm, Nat.add_assoc]

theorem checkLeader_ok_iff (c : Cluster χ) (i : Nat) :
    checkLeader i c = (c, .ok ()) ↔ ∀ n, c.nodes i = some n → n.role = .leader →
      lacking n.term n.log 0 c.committed = none := by
  unfold checkLeader
  split
  · next hn => simp [hn]
  next n hn =>
  split
  · next hrole => simp [hn, hrole]
  next hrole =>
  have hlead : n.role = .leader := not_ne_iff.mp hrole
  split
  · next hl => simp [hn, hlead, hl]
  · next k hl => simp [hn, hlead, hl]

theorem checkLeader_fst (c : Cluster χ) (i : Nat) : (checkLeader i c).1 = c := by
  unfold checkLeader
  split
  · rfl
  · split
    · rfl
    · split <;> rfl

/-! ## Log matching -/

theorem lastSameTerm_eq_some {la lb : List Entry} {m k : Nat} (h : lastSameTerm la lb m = some k) :
    k < m ∧ la[k]?.map Entry.term = lb[k]?.map Entry.term := by
  induction m with
  | zero => cases h
  | succ m ih =>
    unfold lastSameTerm at h
    split at h
    · next he =>
      cases h
      exact ⟨Nat.lt_succ_self _, he⟩
    · exact ⟨(ih h).1.trans (Nat.lt_succ_self _), (ih h).2⟩

theorem checkMatching_fst (p q : Nat) (c : Cluster χ) : (checkMatching p q c).1 = c := by
  unfold checkMatching
  split
  · split
    · rfl
    · split <;> rfl
  · rfl

theorem checkMatching_ok (h : Checkable a c) (p q : Nat) : checkMatching p q c = (c, .ok ()) := by
  unfold checkMatching
  split
  swap
  · rfl
  next x y hx hy =>
  split
  · rfl
  next k hk =>
  obtain ⟨hlt, hterm⟩ := lastSameTerm_eq_some hk
  have hnx := h.live p x hx
  have hny := h.live q y hy
  have hsx : a.Sourced x.log := hnx.log ▸ h.inv.log_sourced p
  have hsy : a.Sourced y.log := hny.log ▸ h.inv.log_sourced q
  have hkx := List.getElem?_eq_getElem (hlt.trans_le (min_le_left _ _))
  have hky := List.getElem?_eq_getElem (hlt.trans_le (min_le_right _ _))
  rw [hkx, hky] at hterm
  have hag := hsx.matching hsy hkx hky (Option.some.inj hterm)
  rw [if_neg (not_not.mpr hag.take_eq)]

/-! ## All checks -/

/-- `c'` is `c` after its checker has recorded what every live node has committed. -/
structure Gathered (c c' : Cluster χ) : Prop where
  same : SameNodes c c'
  kept : c.committed <+: c'.committed
  recorded : ∀ i n, c.nodes i = some n → n.log.take n.commitIndex <+: c'.committed
  observed : ∀ k e, c'.committed[k]? = some e → c.committed[k]? = some e ∨
    ∃ i n, c.nodes i = some n ∧ k < n.commitIndex ∧ n.log[k]? = some e

theorem checkTerms_ok (h : Checkable a c) (ids : List Nat) :
    ∃ c', eachNode checkTerm ids c = (c', .ok ()) ∧ SameNodes c c' ∧
      c'.committed = c.committed ∧ Checkable a c' := by
  obtain ⟨c', hcheck, h', _⟩ := @eachNode_ok _ c ids checkTerm
    (fun c' => SameNodes c c' ∧ c'.committed = c.committed ∧ Checkable a c') (fun _ _ => True)
    (fun i _ c' ⟨hs, hcom, hc⟩ => by
      obtain ⟨c'', hcheck, hs', hcom', hc'⟩ := checkTerm_ok hc i
      exact ⟨c'', hcheck, ⟨hs.trans hs', hcom'.trans hcom, hc'⟩, trivial, fun _ _ => trivial⟩)
    ⟨.refl c, rfl, h⟩
  exact ⟨c', hcheck, h'⟩

theorem checkAllCommitted_ok (h : Checkable a c) :
    ∃ c', eachNode checkCommitted (List.range c.cfg.n) c = (c', .ok ()) ∧ Gathered c c' ∧
      Checkable a c' := by
  -- while the nodes are checked one by one, what earlier ones have committed stays recorded
  obtain ⟨c', hcheck, ⟨hsame, hkept, hseen, h'⟩, hall, _⟩ :=
    @eachNode_ok _ c (List.range c.cfg.n) checkCommitted
      (fun c' => SameNodes c c' ∧ c.committed <+: c'.committed ∧
        (∀ k e, c'.committed[k]? = some e → c.committed[k]? = some e ∨
          ∃ i n, c.nodes i = some n ∧ k < n.commitIndex ∧ n.log[k]? = some e) ∧ Checkable a c')
      (fun i c' => ∀ n, c.nodes i = some n → n.log.take n.commitIndex <+: c'.committed)
      (fun i _ c' ⟨hs, hp, hseen, hc⟩ => by
        obtain ⟨c'', hcheck, hs', hc', hp', hnode, hseen'⟩ := checkCommitted_ok hc i
        rw [hs.nodes] at hnode hseen'
        refine ⟨c'', hcheck, ⟨hs.trans hs', hp.trans hp', fun k e he => ?_, hc'⟩, hnode,
          fun j hj n hn => (hj n hn).trans hp'⟩
        rcases hseen' k e he with he | ⟨n, hn, hrest⟩
        · exact hseen k e he
        · exact .inr ⟨i, n, hn, hrest⟩)
      ⟨.refl c, List.prefix_rfl, fun k e he => .inl he, h⟩
  refine ⟨c', hcheck, ⟨hsame, hkept, fun i n hn => ?_, hseen⟩, h'⟩
  exact hall i (List.mem_range.mpr (h.live i n hn).lt_size) n hn

theorem checkLeaders_ok_iff (h : Checkable a c) :
    eachNode checkLeader (List.range c.cfg.n) c = (c, .ok ()) ↔
      ∀ i n, c.nodes i = some n → n.role = .leader →
        lacking n.term n.log 0 c.committed = none := by
  rw [eachNode_ok_iff (checkLeader_fst c)]
  constructor
  · intro hall i n hn hrole
    have hi : i ∈ List.range c.cfg.n := List.mem_range.mpr (h.live i n hn).lt_size
    exact (checkLeader_ok_iff c i).mp (hall i hi) n hn hrole
  · intro hall i _
    apply (checkLeader_ok_iff c i).mpr
    exact fun n hn hrole => hall i n hn hrole

theorem checkAllMatching_ok (h : Checkable a c) (ids : List Nat) (later : Nat → List Nat) :
    eachNode (fun p => eachNode (checkMatching p) (later p)) ids c = (c, .ok ()) := by
  have hinner : ∀ p, eachNode (checkMatching p) (later p) c = (c, .ok ()) := by
    intro p
    apply (eachNode_ok_iff fun q => by rw [checkMatching_ok h p q]).mpr
    exact fun q _ => checkMatching_ok h p q
  apply (eachNode_ok_iff fun p => by rw [hinner p]).mpr
  exact fun p _ => hinner p

/-- The books of the checker are right after a call and record what every node has committed.
It reports nothing if and only if no live leader lacks an entry that only entries of earlier
terms precede. -/
theorem checkInvariants_spec (h : Checkable a c) :
    ∃ c₂, Gathered c c₂ ∧ Checkable a c₂ ∧ c.checkInvariants.1 = c₂ ∧
      ((c.checkInvariants).2 = .ok () ↔ ∀ i n, c.nodes i = some n → n.role = .leader →
        lacking n.term n.log 0 c₂.committed = none) := by
  obtain ⟨c₁, hterm, hsame₁, hcommitted₁, h₁⟩ := checkTerms_ok h (List.range c.cfg.n)
  obtain ⟨c₂, hcommit, hgathered, h₂⟩ := checkAllCommitted_ok h₁
  have hleaders := checkLeaders_ok_iff h₂
  rw [hgathered.same.cfg, hsame₁.cfg, hgathered.same.nodes, hsame₁.nodes] at hleaders
  rw [hsame₁.cfg] at hcommit
  have hgathered' : Gathered c c₂ := by
    refine ⟨hsame₁.trans hgathered.same, hcommitted₁ ▸ hgathered.kept, ?_, ?_⟩
    · rw [← hsame₁.nodes]
      exact hgathered.recorded
    · rw [← hsame₁.nodes, ← hcommitted₁]
      exact hgathered.observed
  obtain ⟨r, hr⟩ : ∃ r, eachNode checkLeader (List.range c.cfg.n) c₂ = (c₂, r) :=
    ⟨_, Prod.ext (eachNode_fst (checkLeader_fst c₂)) rfl⟩
  refine ⟨c₂, hgathered', h₂, ?_⟩
  rw [← hleaders, hr]
  cases r with
  | ok u =>
    have hresult : c.checkInvariants = (c₂, .ok ()) := by
      simp only [checkInvariants, hterm, hcommit, hr]
      exact checkAllMatching_ok h₂ _ _
    rw [hresult]
    exact ⟨rfl, iff_of_true rfl rfl⟩
  | error v =>
    have hresult : c.checkInvariants = (c₂, .error v) := by
      simp only [checkInvariants, hterm, hcommit, hr]
    rw [hresult]
    exact ⟨rfl, by simp⟩

end Landsraad
