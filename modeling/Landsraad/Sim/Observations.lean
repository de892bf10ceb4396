import Landsraad.Raft.Merge
import Landsraad.Sim.Alarms

/-!
# What the invariant checker cannot miss

The checker keeps one leader per term, one committed log and the highest terms, and compares two
logs at one index only. Whatever it is shown, Raft or not: as long as it reports nothing, these
summaries speak for every pair of nodes at every pair of checks.
-/

namespace Landsraad

open ReplicatedLog Cluster Run

variable {χ : Type} {c c' : Cluster χ} {b b' : Books} {i : Nat} {ids : List Nat}

/-! ## Checks that pass -/

/-- Where a check passes for each node in turn, keeps `I` and brings about `Q` for good, all of
`Q` holds in the end. -/
theorem eachNode_passed {check : Nat → Cluster χ → Checkpoint χ} {I : Cluster χ → Prop}
    {Q : Nat → Cluster χ → Prop}
    (h : ∀ i ∈ ids, ∀ c c', I c → check i c = (c', .ok ()) → I c' ∧ Q i c' ∧ ∀ j, Q j c → Q j c')
    (hc : I c) (heach : eachNode check ids c = (c', .ok ())) :
    I c' ∧ (∀ i ∈ ids, Q i c') ∧ ∀ j, Q j c → Q j c' := by
  induction ids generalizing c with
  | nil =>
    cases heach
    exact ⟨hc, by simp, fun _ hq => hq⟩
  | cons i is ih =>
    rw [eachNode] at heach
    split at heach
    · next c₁ hcheck =>
      obtain ⟨h₁, hq, hstay⟩ := h i List.mem_cons_self c c₁ hc hcheck
      obtain ⟨h', hall, hstay'⟩ := ih (fun j hj => h j (List.mem_cons_of_mem i hj)) h₁ heach
      refine ⟨h', fun j hj => ?_, fun j hj => hstay' j (hstay j hj)⟩
      rcases List.mem_cons.mp hj with rfl | hj
      · exact hstay' j hq
      · exact hall j hj
    · cases heach

/-- The books after the terms were checked know what they knew before. -/
structure TermsKept (c c' : Cluster χ) : Prop where
  same : SameNodes c c'
  committed : c'.committed = c.committed
  maxTermSeen : ∀ i, c.maxTermSeen i ≤ c'.maxTermSeen i
  leadersByTerm : ∀ t i, c.leadersByTerm t = some i → c'.leadersByTerm t = some i

theorem TermsKept.trans {c'' : Cluster χ} (h : TermsKept c c') (h' : TermsKept c' c'') :
    TermsKept c c'' where
  same := h.same.trans h'.same
  committed := h'.committed.trans h.committed
  maxTermSeen i := (h.maxTermSeen i).trans (h'.maxTermSeen i)
  leadersByTerm t i ht := h'.leadersByTerm t i (h.leadersByTerm t i ht)

/-- The term of node `i` lies between what the books say before and after, and if it leads
they name it. -/
def TermNoted (c c' : Cluster χ) (i : Nat) : Prop :=
  ∀ n, c.nodes i = some n → c.maxTermSeen i ≤ n.term ∧ n.term ≤ c'.maxTermSeen i ∧
    (n.role = .leader → c'.leadersByTerm n.term = some i)

theorem checkTerm_passed (h : checkTerm i c = (c', .ok ())) :
    TermsKept c c' ∧ TermNoted c c' i := by
  unfold checkTerm at h
  split at h
  · next hn =>
    cases h
    refine ⟨⟨.refl c, rfl, fun _ => le_rfl, fun _ _ ht => ht⟩, fun n hn' => ?_⟩
    rw [hn] at hn'
    cases hn'
  next n hn =>
  split at h
  · cases h
  next hle =>
  have hle : c.maxTermSeen i ≤ n.term := Nat.le_of_not_lt hle
  have hmax : ∀ j, c.maxTermSeen j ≤ Function.update c.maxTermSeen i n.term j := by
    intro j
    by_cases hj : j = i
    · subst hj
      rw [Function.update_self]
      exact hle
    · rw [Function.update_of_ne hj]
  split at h
  · next hrole =>
    dsimp only at h
    split at h
    · cases h
    next hprev =>
    have hprev : (c.leadersByTerm n.term).getD i = i := not_ne_iff.mp hprev
    cases h
    refine ⟨⟨⟨rfl, rfl, rfl, rfl⟩, rfl, hmax, fun t j ht => ?_⟩, fun m hm => ?_⟩
    · dsimp only
      by_cases hterm : t = n.term
      · subst hterm
        rw [Function.update_self, ht, Option.getD_some]
      · rw [Function.update_of_ne hterm, ht]
    · rw [hn] at hm
      cases hm
      refine ⟨hle, ?_, fun _ => ?_⟩
      · dsimp only
        rw [Function.update_self]
      · dsimp only
        rw [Function.update_self, hprev]
  · next hrole =>
    cases h
    refine ⟨⟨⟨rfl, rfl, rfl, rfl⟩, rfl, hmax, fun _ _ ht => ht⟩, fun m hm => ?_⟩
    rw [hn] at hm
    cases hm
    refine ⟨hle, ?_, fun hlead => absurd hlead hrole⟩
    dsimp only
    rw [Function.update_self]

theorem checkTerms_passed (h : eachNode checkTerm ids c = (c', .ok ())) :
    TermsKept c c' ∧ ∀ i ∈ ids, TermNoted c c' i := by
  obtain ⟨hkept, hnoted, _⟩ := eachNode_passed (I := TermsKept c)
    (Q := fun i c' => TermNoted c c' i) (fun i _ c₁ c₂ hkept hcheck => by
      obtain ⟨hstep, hnoted⟩ := checkTerm_passed hcheck
      refine ⟨hkept.trans hstep, fun n hn => ?_, fun j hj n hn => ?_⟩
      · rw [← hkept.same.nodes] at hn
        obtain ⟨hle, hrest⟩ := hnoted n hn
        exact ⟨(hkept.maxTermSeen i).trans hle, hrest⟩
      · obtain ⟨hle, hge, hlead⟩ := hj n hn
        exact ⟨hle, hge.trans (hstep.maxTermSeen j),
          fun hrole => hstep.leadersByTerm _ _ (hlead hrole)⟩)
    ⟨.refl c, rfl, fun _ => le_rfl, fun _ _ ht => ht⟩ h
  exact ⟨hkept, hnoted⟩

theorem mergeCommitted_passed {committed l l' m : List Entry} {k : Nat} (hk : l.length = k)
    (hl : l <+: committed) (h : mergeCommitted committed k l' = .ok m) :
    committed <+: m ∧ l ++ l' <+: m ∧ (m = committed ∨ m = l ++ l') := by
  induction l' generalizing committed l k with
  | nil =>
    cases h
    rw [List.append_nil]
    exact ⟨List.prefix_rfl, hl, .inl rfl⟩
  | cons e rest ih =>
    have hassoc : l ++ e :: rest = (l ++ [e]) ++ rest := by simp
    have hsucc : (l ++ [e]).length = k + 1 := by simp [hk]
    rw [hassoc]
    unfold mergeCommitted at h
    split at h
    · next x hx =>
      split at h
      · cases h
      next hxe =>
      have hxe : x = e := not_not.mp hxe
      have hnext : l ++ [e] <+: committed := by
        obtain ⟨tail, rfl⟩ := hl
        rw [List.getElem?_append_right hk.le, hk, Nat.sub_self] at hx
        cases tail with
        | nil => cases hx
        | cons y tail =>
          cases hx
          rw [← hxe]
          exact (List.prefix_append_right_inj l).mpr (List.prefix_append [x] tail)
      exact ih hsucc hnext h
    · next hx =>
      have hend : l = committed :=
        hl.eq_of_length_le (by rw [hk]; exact List.getElem?_eq_none_iff.mp hx)
      subst hend
      obtain ⟨hp, hp', hcase⟩ := ih hsucc List.prefix_rfl h
      refine ⟨(List.prefix_append l [e]).trans hp, hp', .inr ?_⟩
      rcases hcase with rfl | rfl
      · exact (hp'.eq_of_length_le (List.prefix_append _ _).length_le).symm
      · rfl

/-- The committed log after a check extends the one before, and each new entry was seen to be
committed by one of the nodes `ids`. -/
structure CommitsKept (ids : List Nat) (c c' : Cluster χ) : Prop where
  same : SameNodes c c'
  maxTermSeen : c'.maxTermSeen = c.maxTermSeen
  leadersByTerm : c'.leadersByTerm = c.leadersByTerm
  committed : c.committed <+: c'.committed
  observed : ∀ k e, c'.committed[k]? = some e → c.committed[k]? = some e ∨
    ∃ i ∈ ids, ∃ n, c.nodes i = some n ∧ k < n.commitIndex ∧ n.log[k]? = some e

/-- What node `i` has committed is part of its log and on record. -/
def CommitNoted (c c' : Cluster χ) (i : Nat) : Prop :=
  ∀ n, c.nodes i = some n →
    n.commitIndex ≤ n.log.length ∧ n.log.take n.commitIndex <+: c'.committed

theorem checkCommitted_passed (h : checkCommitted i c = (c', .ok ())) :
    CommitsKept [i] c c' ∧ CommitNoted c c' i := by
  unfold checkCommitted at h
  split at h
  · next hn =>
    cases h
    refine ⟨⟨.refl c, rfl, rfl, List.prefix_rfl, fun _ _ he => .inl he⟩, fun n hn' => ?_⟩
    rw [hn] at hn'
    cases hn'
  next n hn =>
  split at h
  · cases h
  next hlen =>
  have hlen : n.commitIndex ≤ n.log.length := Nat.le_of_not_lt hlen
  split at h
  · cases h
  next m hm =>
  cases h
  obtain ⟨hp, hp', hcase⟩ := mergeCommitted_passed (l := []) rfl List.nil_prefix hm
  refine ⟨⟨⟨rfl, rfl, rfl, rfl⟩, rfl, rfl, hp, fun k e he => ?_⟩, fun n' hn' => ?_⟩
  · rcases hcase with rfl | rfl
    · exact .inl he
    · rw [List.nil_append] at he
      have hlt := (List.getElem?_eq_some_iff.mp he).1
      rw [List.length_take, min_eq_left hlen] at hlt
      rw [List.getElem?_take_of_lt hlt] at he
      exact .inr ⟨i, by simp, n, hn, hlt, he⟩
  · rw [hn] at hn'
    cases hn'
    exact ⟨hlen, hp'⟩

theorem checkAllCommitted_passed (h : eachNode checkCommitted ids c = (c', .ok ())) :
    CommitsKept ids c c' ∧ ∀ i ∈ ids, CommitNoted c c' i := by
  obtain ⟨hkept, hnoted, _⟩ := eachNode_passed (I := CommitsKept ids c)
    (Q := fun i c' => CommitNoted c c' i)
    (fun i hi c₁ c₂ hkept hcheck => by
      obtain ⟨hstep, hnoted⟩ := checkCommitted_passed hcheck
      refine ⟨⟨hkept.same.trans hstep.same, hstep.maxTermSeen.trans hkept.maxTermSeen,
        hstep.leadersByTerm.trans hkept.leadersByTerm, hkept.committed.trans hstep.committed,
        fun k e he => ?_⟩, fun n hn => ?_, fun j hj n hn => ?_⟩
      · rcases hstep.observed k e he with he | ⟨j, hj, n, hn, hseen⟩
        · exact hkept.observed k e he
        · rw [hkept.same.nodes] at hn
          exact .inr ⟨j, List.mem_singleton.mp hj ▸ hi, n, hn, hseen⟩
      · rw [← hkept.same.nodes] at hn
        exact hnoted n hn
      · obtain ⟨hlen, hp⟩ := hj n hn
        exact ⟨hlen, hp.trans hstep.committed⟩)
    ⟨.refl c, rfl, rfl, List.prefix_rfl, fun _ _ he => .inl he⟩ h
  exact ⟨hkept, hnoted⟩

/-- The search finds a position at or after every position with equal terms. -/
theorem lastSameTerm_ge {la lb : List Entry} {m k : Nat} (hk : k < m)
    (h : la[k]?.map Entry.term = lb[k]?.map Entry.term) :
    ∃ k', lastSameTerm la lb m = some k' ∧ k ≤ k' := by
  induction m with
  | zero => exact absurd hk (Nat.not_lt_zero k)
  | succ m ih =>
    unfold lastSameTerm
    split
    · exact ⟨m, rfl, Nat.le_of_lt_succ hk⟩
    · next hne =>
      have hkm : k ≠ m := by
        rintro rfl
        exact hne h
      exact ih (by omega)

/-- To agree up to the last common index of equal terms is to match everywhere. -/
theorem checkMatching_passed {p q : Nat} (h : checkMatching p q c = (c, .ok ())) {x y : Node Disk}
    (hx : c.nodes p = some x) (hy : c.nodes q = some y) : LogMatching x.log y.log := by
  intro k e e' he he' hterm
  have hlt := (List.getElem?_eq_some_iff.mp he).1
  have hlt' := (List.getElem?_eq_some_iff.mp he').1
  have hsame : x.log[k]?.map Entry.term = y.log[k]?.map Entry.term := by
    rw [he, he']
    exact congrArg some hterm
  obtain ⟨k', hlast, hle⟩ := lastSameTerm_ge (lt_min hlt hlt') hsame
  obtain ⟨hlt'', _⟩ := lastSameTerm_eq_some hlast
  unfold checkMatching at h
  rw [hx, hy] at h
  simp only [hlast] at h
  split at h
  · cases h
  · next heq =>
    have heq : x.log.take (k' + 1) = y.log.take (k' + 1) := not_not.mp heq
    have hag : AgreeUpTo (k' + 1) x.log y.log := by
      apply AgreeUpTo.of_take_isPrefix (hlt''.trans_le (min_le_left _ _))
      rw [heq]
      exact List.take_prefix _ _
    exact hag.mono (Nat.succ_le_succ hle)

theorem LogMatching.symm {l l' : List Entry} (h : LogMatching l l') : LogMatching l' l :=
  fun k e e' he he' hterm => (h k e' e he' he hterm.symm).symm

theorem checkAllMatching_passed {size : Nat}
    (h : eachNode (fun p => eachNode (checkMatching p) ((List.range size).drop (p + 1)))
      (List.range size) c = (c, .ok ())) {p q : Nat} (hp : p < size) (hq : q < size)
    {x y : Node Disk} (hx : c.nodes p = some x) (hy : c.nodes q = some y) :
    LogMatching x.log y.log := by
  have hlater : ∀ p q x y, p < q → q < size → c.nodes p = some x → c.nodes q = some y →
      LogMatching x.log y.log := by
    intro p q x y hpq hq hx hy
    have houter := (eachNode_ok_iff fun p => eachNode_fst (checkMatching_fst p · c)).mp h p
      (List.mem_range.mpr (hpq.trans hq))
    have hmem : q ∈ (List.range size).drop (p + 1) := by
      rw [List.range_eq_range', List.drop_range', List.mem_range'_1]
      omega
    exact checkMatching_passed
      ((eachNode_ok_iff fun q => checkMatching_fst p q c).mp houter q hmem) hx hy
  rcases Nat.lt_trichotomy p q with hpq | rfl | hqp
  · exact hlater p q x y hpq hq hx hy
  · rw [hx] at hy
    cases hy
    exact .of_isPrefix List.prefix_rfl
  · exact (hlater q p y x hqp hp hy hx).symm

/-! ## One call of the checker -/

namespace Cluster

/-- Before the first check. -/
def freshBooks (size : Nat) : Books := ⟨size, fun _ => none, [], fun _ => 0, fun _ => 0⟩

/-- The cluster `c`, of `b.size` nodes, as the checker with the books `b` sees it. -/
def withBooks (c : Cluster χ) (b : Books) : Cluster χ :=
  { c with
    cfg := { c.cfg with n := b.size }
    leadersByTerm := b.leadersByTerm
    committed := b.committed
    maxCommitSeen := b.maxCommitSeen
    maxTermSeen := b.maxTermSeen }

@[simp] theorem withBooks_nodes (c : Cluster χ) (b : Books) : (c.withBooks b).nodes = c.nodes := rfl

@[simp] theorem withBooks_books (c : Cluster χ) (b : Books) : (c.withBooks b).books = b := rfl

@[simp] theorem withBooks_self (c : Cluster χ) : c.withBooks c.books = c := rfl

/-- The books after a call of the checker that reports nothing about `c`. -/
def accept (b : Books) (c : Cluster χ) : Option Books :=
  match (c.withBooks b).checkInvariants with
  | (c', .ok ()) => some c'.books
  | (_, .error _) => none

end Cluster

/-- What a call that reports nothing says about the cluster `c` and the books. -/
structure Accepted (b b' : Books) (c : Cluster χ) : Prop where
  size : b'.size = b.size
  leadersKept : ∀ t i, b.leadersByTerm t = some i → b'.leadersByTerm t = some i
  committedKept : b.committed <+: b'.committed
  terms : ∀ i < b.size, ∀ n, c.nodes i = some n →
    b.maxTermSeen i ≤ n.term ∧ n.term ≤ b'.maxTermSeen i
  termsKept : ∀ i, b.maxTermSeen i ≤ b'.maxTermSeen i
  leaders : ∀ i < b.size, ∀ n, c.nodes i = some n → n.role = .leader →
    b'.leadersByTerm n.term = some i
  commits : ∀ i < b.size, ∀ n, c.nodes i = some n →
    n.commitIndex ≤ n.log.length ∧ n.log.take n.commitIndex <+: b'.committed
  observed : ∀ k e, b'.committed[k]? = some e → b.committed[k]? = some e ∨
    ∃ i < b.size, ∃ n, c.nodes i = some n ∧ k < n.commitIndex ∧ n.log[k]? = some e
  complete : ∀ i < b.size, ∀ n, c.nodes i = some n → n.role = .leader →
    lacking n.term n.log 0 b'.committed = none
  matching : ∀ i < b.size, ∀ j < b.size, ∀ n m, c.nodes i = some n → c.nodes j = some m →
    LogMatching n.log m.log

theorem checkInvariants_passed (h : c.checkInvariants = (c', .ok ())) :
    ∃ c₁, eachNode checkTerm (List.range c.cfg.n) c = (c₁, .ok ()) ∧
      eachNode checkCommitted (List.range c.cfg.n) c₁ = (c', .ok ()) ∧
      eachNode checkLeader (List.range c.cfg.n) c' = (c', .ok ()) ∧
      eachNode (fun p => eachNode (checkMatching p) ((List.range c.cfg.n).drop (p + 1)))
        (List.range c.cfg.n) c' = (c', .ok ()) := by
  unfold checkInvariants at h
  dsimp only at h
  split at h
  · cases h
  next c₁ hterms =>
  split at h
  · cases h
  next c₂ hcommitted =>
  split at h
  · cases h
  next c₃ hleaders =>
  obtain rfl : c₃ = c₂ := by
    have hfst : (eachNode checkLeader (List.range c.cfg.n) c₂).1 = c₂ :=
      eachNode_fst (checkLeader_fst c₂)
    rw [hleaders] at hfst
    exact hfst
  obtain rfl : c' = c₃ := by
    have hfst : (eachNode (fun p => eachNode (checkMatching p) ((List.range c.cfg.n).drop (p + 1)))
        (List.range c.cfg.n) c₃).1 = c₃ := by
      apply eachNode_fst
      intro p
      exact eachNode_fst fun q => checkMatching_fst p q c₃
    rw [h] at hfst
    exact hfst
  exact ⟨c₁, hterms, hcommitted, hleaders, h⟩

theorem accept_eq_some (h : c.accept b = some b') : Accepted b b' c := by
  unfold accept at h
  split at h
  swap
  · cases h
  next c' hcheck =>
  cases h
  obtain ⟨c₁, hterms, hcommitted, hleaders, hmatching⟩ := checkInvariants_passed hcheck
  obtain ⟨hkept, hnoted⟩ := checkTerms_passed hterms
  obtain ⟨hkept', hnoted'⟩ := checkAllCommitted_passed hcommitted
  have hsame := hkept.same.trans hkept'.same
  have hnodes : c'.nodes = c.nodes := hsame.nodes
  have hmem : ∀ i < b.size, i ∈ List.range (c.withBooks b).cfg.n :=
    fun i hi => List.mem_range.mpr hi
  exact
    { size := congrArg ClusterConfig.n hsame.cfg
      leadersKept := by
        intro t i ht
        show c'.leadersByTerm t = some i
        rw [hkept'.leadersByTerm]
        exact hkept.leadersByTerm t i ht
      committedKept := by
        show b.committed <+: c'.committed
        have hpre := hkept'.committed
        rw [hkept.committed] at hpre
        exact hpre
      terms := by
        intro i hi n hn
        obtain ⟨hle, hge, _⟩ := hnoted i (hmem i hi) n hn
        refine ⟨hle, ?_⟩
        show n.term ≤ c'.maxTermSeen i
        rw [hkept'.maxTermSeen]
        exact hge
      termsKept := by
        intro i
        show b.maxTermSeen i ≤ c'.maxTermSeen i
        rw [hkept'.maxTermSeen]
        exact hkept.maxTermSeen i
      leaders := by
        intro i hi n hn hrole
        show c'.leadersByTerm n.term = some i
        rw [hkept'.leadersByTerm]
        exact (hnoted i (hmem i hi) n hn).2.2 hrole
      commits := by
        intro i hi n hn
        exact hnoted' i (hmem i hi) n (by rw [hkept.same.nodes]; exact hn)
      observed := by
        intro k e he
        rcases hkept'.observed k e he with he | ⟨i, hi, n, hn, hseen⟩
        · rw [hkept.committed] at he
          exact .inl he
        · rw [hkept.same.nodes] at hn
          exact .inr ⟨i, List.mem_range.mp hi, n, hn, hseen⟩
      complete := by
        intro i hi n hn hrole
        have hall := (eachNode_ok_iff (checkLeader_fst c')).mp hleaders i (hmem i hi)
        exact (checkLeader_ok_iff c' i).mp hall n (by rw [hnodes]; exact hn) hrole
      matching := by
        intro i hi j hj n m hn hm
        rw [← hnodes] at hn hm
        exact checkAllMatching_passed hmatching hi hj hn hm }

/-! ## Successive calls -/

/-- Node `i` was live at call `k` of the checker, and in the state `n`. -/
def Shown (size : Nat) (shown : List (Cluster χ)) (k i : Nat) (n : Node Disk) : Prop :=
  i < size ∧ ∃ c, shown[k]? = some c ∧ c.nodes i = some n

/-- Some node was seen to have committed `e` at position `q` at call `k` or before. -/
def SeenCommitted (size : Nat) (shown : List (Cluster χ)) (k q : Nat) (e : Entry) : Prop :=
  ∃ k' ≤ k, ∃ i n, Shown size shown k' i n ∧ q < n.commitIndex ∧ n.log[q]? = some e

/-- The books speak for everything that the checker was shown. -/
structure OnRecord (shown : List (Cluster χ)) (b : Books) : Prop where
  terms : ∀ c ∈ shown, ∀ i < b.size, ∀ n, c.nodes i = some n → n.term ≤ b.maxTermSeen i
  leaders : ∀ c ∈ shown, ∀ i < b.size, ∀ n, c.nodes i = some n → n.role = .leader →
    b.leadersByTerm n.term = some i
  commits : ∀ c ∈ shown, ∀ i < b.size, ∀ n, c.nodes i = some n →
    n.commitIndex ≤ n.log.length ∧ n.log.take n.commitIndex <+: b.committed
  observed : ∀ k e, b.committed[k]? = some e → ∃ c ∈ shown, ∃ i < b.size, ∃ n,
    c.nodes i = some n ∧ k < n.commitIndex ∧ n.log[k]? = some e

variable {shown : List (Cluster χ)} {size : Nat}

theorem OnRecord.fresh (size : Nat) : OnRecord ([] : List (Cluster χ)) (freshBooks size) where
  terms _ hc := nomatch hc
  leaders _ hc := nomatch hc
  commits _ hc := nomatch hc
  observed _ _ he := nomatch he

theorem OnRecord.accepted (h : OnRecord shown b) (ha : Accepted b b' c) :
    OnRecord (shown ++ [c]) b' := by
  have hmem : ∀ p ∈ shown ++ [c], p ∈ shown ∨ p = c := by
    intro p hp
    rcases List.mem_append.mp hp with hp | hp
    · exact .inl hp
    · exact .inr (List.mem_singleton.mp hp)
  refine ⟨?_, ?_, ?_, ?_⟩
  · intro p hp i hi n hn
    rw [ha.size] at hi
    rcases hmem p hp with hp | rfl
    · exact (h.terms p hp i hi n hn).trans (ha.termsKept i)
    · exact (ha.terms i hi n hn).2
  · intro p hp i hi n hn hrole
    rw [ha.size] at hi
    rcases hmem p hp with hp | rfl
    · exact ha.leadersKept _ _ (h.leaders p hp i hi n hn hrole)
    · exact ha.leaders i hi n hn hrole
  · intro p hp i hi n hn
    rw [ha.size] at hi
    rcases hmem p hp with hp | rfl
    · obtain ⟨hlen, hpre⟩ := h.commits p hp i hi n hn
      exact ⟨hlen, hpre.trans ha.committedKept⟩
    · exact ha.commits i hi n hn
  · intro k e he
    rw [ha.size]
    rcases ha.observed k e he with he | ⟨i, hi, n, hseen⟩
    · obtain ⟨p, hp, hseen⟩ := h.observed k e he
      exact ⟨p, List.mem_append_left _ hp, hseen⟩
    · exact ⟨c, by simp, i, hi, n, hseen⟩

theorem exec_onRecord (h : exec accept (freshBooks size) shown = some b) :
    b.size = size ∧ OnRecord shown b := by
  induction shown using List.reverseRecOn generalizing b with
  | nil =>
    cases h
    exact ⟨rfl, .fresh size⟩
  | append_singleton shown c ih =>
    obtain ⟨b₁, h₁, hc⟩ := exec_append_eq_some.mp h
    rw [exec_singleton] at hc
    obtain ⟨hsize, hrec⟩ := ih h₁
    have ha := accept_eq_some hc
    exact ⟨ha.size.trans hsize, hrec.accepted ha⟩

theorem Shown.accepted (h : exec accept (freshBooks size) shown = some b) {k : Nat}
    {n : Node Disk} (hn : Shown size shown k i n) :
    ∃ c b₁ b₂, shown[k]? = some c ∧ c.nodes i = some n ∧ i < b₁.size ∧ b₁.size = size ∧
      OnRecord (shown.take k) b₁ ∧ Accepted b₁ b₂ c ∧ OnRecord (shown.take (k + 1)) b₂ := by
  obtain ⟨hi, c, hc, hn⟩ := hn
  obtain ⟨b₁, b₂, h₁, hac, _⟩ := exec_getElem? h hc
  obtain ⟨hsize, hrec⟩ := exec_onRecord h₁
  have ha := accept_eq_some hac
  refine ⟨c, b₁, b₂, hc, hn, hsize.symm ▸ hi, hsize, hrec, ha, ?_⟩
  rw [List.take_add_one, hc]
  exact hrec.accepted ha

theorem Shown.mem_take {k k' : Nat} {n : Node Disk} (hn : Shown size shown k i n) (h : k < k') :
    ∃ c ∈ shown.take k', c.nodes i = some n := by
  obtain ⟨_, c, hc, hn⟩ := hn
  refine ⟨c, ?_, hn⟩
  apply List.mem_of_getElem? (i := k)
  rw [List.getElem?_take_of_lt h]
  exact hc

/-- What is on record as committed after call `k` has been seen, and what has been seen to be
committed is on record. -/
theorem OnRecord.seenCommitted_iff {k : Nat} (h : OnRecord (shown.take (k + 1)) b)
    (hsize : b.size = size) {q : Nat} {e : Entry} :
    b.committed[q]? = some e ↔ SeenCommitted size shown k q e := by
  constructor
  · intro he
    obtain ⟨c, hc, i, hi, n, hn, hq, hne⟩ := h.observed q e he
    obtain ⟨k', hk'⟩ := List.getElem?_of_mem hc
    have hlt : k' < k + 1 := by
      have hbound := (List.getElem?_eq_some_iff.mp hk').1
      rw [List.length_take] at hbound
      omega
    rw [List.getElem?_take_of_lt hlt] at hk'
    exact ⟨k', Nat.le_of_lt_succ hlt, i, n, ⟨hsize ▸ hi, c, hk', hn⟩, hq, hne⟩
  · rintro ⟨k', hk, i, n, hn, hq, hne⟩
    obtain ⟨c, hc, hcn⟩ := hn.mem_take (Nat.lt_succ_of_le hk)
    obtain ⟨_, hpre⟩ := h.commits c hc i (hsize.symm ▸ hn.1) n hcn
    obtain ⟨tail, htail⟩ := hpre
    rw [← htail, List.getElem?_append_left, List.getElem?_take_of_lt hq]
    · exact hne
    · have hlt := (List.getElem?_eq_some_iff.mp hne).1
      rw [List.length_take]
      exact lt_min hq hlt

namespace Shown

variable {k k' i j : Nat} {n m : Node Disk}

/-- The books at the end speak for a node that was shown at any call. -/
theorem mem_shown (hn : Shown size shown k i n) (hsize : b.size = size) :
    i < b.size ∧ ∃ c ∈ shown, c.nodes i = some n := by
  obtain ⟨hi, c, hc, hn⟩ := hn
  exact ⟨hsize.symm ▸ hi, c, List.mem_of_getElem? hc, hn⟩

theorem same_leader (h : exec accept (freshBooks size) shown = some b)
    (hn : Shown size shown k i n) (hm : Shown size shown k' j m) (hrole : n.role = .leader)
    (hrole' : m.role = .leader) (hterm : n.term = m.term) : i = j := by
  obtain ⟨hsize, hrec⟩ := exec_onRecord h
  obtain ⟨hi, c, hc, hn⟩ := hn.mem_shown hsize
  obtain ⟨hj, c', hc', hm⟩ := hm.mem_shown hsize
  have hleader := hrec.leaders c hc i hi n hn hrole
  rw [hterm, hrec.leaders c' hc' j hj m hm hrole'] at hleader
  exact (Option.some.inj hleader).symm

theorem term_le (h : exec accept (freshBooks size) shown = some b) (hk : k ≤ k')
    (hn : Shown size shown k i n) (hm : Shown size shown k' i m) : n.term ≤ m.term := by
  rcases Nat.lt_or_eq_of_le hk with hlt | rfl
  · obtain ⟨c', b₁, b₂, _, hm', hi, _, hrec₁, ha, _⟩ := hm.accepted h
    obtain ⟨c, hc, hn'⟩ := hn.mem_take hlt
    exact (hrec₁.terms c hc i hi n hn').trans (ha.terms i hi m hm').1
  · obtain ⟨_, c, hc, hn⟩ := hn
    obtain ⟨_, c', hc', hm⟩ := hm
    rw [hc] at hc'
    cases hc'
    rw [hn] at hm
    cases hm
    exact le_rfl

theorem commits_comparable (h : exec accept (freshBooks size) shown = some b)
    (hn : Shown size shown k i n) (hm : Shown size shown k' j m) :
    n.commitIndex ≤ n.log.length ∧ m.commitIndex ≤ m.log.length ∧
      (n.log.take n.commitIndex <+: m.log.take m.commitIndex ∨
        m.log.take m.commitIndex <+: n.log.take n.commitIndex) := by
  obtain ⟨hsize, hrec⟩ := exec_onRecord h
  obtain ⟨hi, c, hc, hn⟩ := hn.mem_shown hsize
  obtain ⟨hj, c', hc', hm⟩ := hm.mem_shown hsize
  obtain ⟨hlen, hpre⟩ := hrec.commits c hc i hi n hn
  obtain ⟨hlen', hpre'⟩ := hrec.commits c' hc' j hj m hm
  exact ⟨hlen, hlen', List.prefix_or_prefix_of_prefix hpre hpre'⟩

theorem matching (h : exec accept (freshBooks size) shown = some b)
    (hn : Shown size shown k i n) (hm : Shown size shown k j m) : LogMatching n.log m.log := by
  obtain ⟨c, b₁, b₂, hc, hn', hi, hsize₁, _, ha, _⟩ := hn.accepted h
  obtain ⟨hj, c', hc', hm'⟩ := hm
  rw [hc] at hc'
  cases hc'
  exact ha.matching i hi j (hsize₁.symm ▸ hj) n m hn' hm'

/-- A leader holds the entries seen to be committed before the first one of its own term or
later. -/
theorem leader_holds (h : exec accept (freshBooks size) shown = some b)
    (hn : Shown size shown k i n) (hrole : n.role = .leader) {q : Nat} {e : Entry}
    (he : SeenCommitted size shown k q e)
    (hearlier : ∀ r x, r ≤ q → SeenCommitted size shown k r x → x.term < n.term) :
    n.log[q]? = some e := by
  obtain ⟨c, b₁, b₂, hc, hn', hi, hsize₁, _, ha, hrec₂⟩ := hn.accepted h
  have hsize₂ : b₂.size = size := ha.size.trans hsize₁
  have hcommitted := (hrec₂.seenCommitted_iff hsize₂).mpr he
  have hhas := lacking_eq_none_iff.mp (ha.complete i hi n hn' hrole) q e hcommitted ?_
  · rw [Nat.zero_add] at hhas
    exact hhas
  · intro x hx
    obtain ⟨r, hr⟩ := List.getElem?_of_mem hx
    have hlt : r < q + 1 := by
      have hbound := (List.getElem?_eq_some_iff.mp hr).1
      rw [List.length_take] at hbound
      omega
    rw [List.getElem?_take_of_lt hlt] at hr
    exact hearlier r x (Nat.le_of_lt_succ hlt) ((hrec₂.seenCommitted_iff hsize₂).mp hr)

end Shown

/-- If no call reports anything, whatever the nodes are that the checker is shown: a term has
one leader over all calls, the terms of a node do not decrease, committed prefixes are
comparable over all nodes and calls, all logs match pairwise at each call, and a leader holds
the entries that were seen to be committed before the first one of its own term or later. -/
theorem checker_misses_nothing (h : exec accept (freshBooks size) shown = some b) :
    (∀ k k' i j n m, Shown size shown k i n → Shown size shown k' j m → n.role = .leader →
      m.role = .leader → n.term = m.term → i = j) ∧
    (∀ k k' i n m, k ≤ k' → Shown size shown k i n → Shown size shown k' i m →
      n.term ≤ m.term) ∧
    (∀ k k' i j n m, Shown size shown k i n → Shown size shown k' j m →
      n.commitIndex ≤ n.log.length ∧ m.commitIndex ≤ m.log.length ∧
        (n.log.take n.commitIndex <+: m.log.take m.commitIndex ∨
          m.log.take m.commitIndex <+: n.log.take n.commitIndex)) ∧
    (∀ k i j n m, Shown size shown k i n → Shown size shown k j m → LogMatching n.log m.log) ∧
    ∀ k i n, Shown size shown k i n → n.role = .leader → ∀ q e, SeenCommitted size shown k q e →
      (∀ r x, r ≤ q → SeenCommitted size shown k r x → x.term < n.term) →
        n.log[q]? = some e := by
  refine ⟨?_, ?_, ?_, ?_, ?_⟩
  · intro k k' i j n m hn hm hrole hrole' hterm
    exact hn.same_leader h hm hrole hrole' hterm
  · intro k k' i n m hk hn hm
    exact hn.term_le h hk hm
  · intro k k' i j n m hn hm
    exact hn.commits_comparable h hm
  · intro k i j n m hn hm
    exact hn.matching h hm
  · intro k i n hn hrole q e he hearlier
    exact hn.leader_holds h hrole he hearlier

def Cluster.photograph (s : System) : Cluster Unit where
  cfg := ⟨3, 0, .none, (1, 1), 1⟩
  now := 0
  links := fun _ _ => ()
  blocked := fun _ _ => false
  nodes := s.node
  disks := fun i => (s.slots i).disk
  nextCommand := 0
  leadersByTerm := fun _ => none
  committed := []
  maxCommitSeen := fun _ => 0
  maxTermSeen := fun _ => 0

/-- Three moments at which node 0 leads term 1, has committed its no-op, and has lost to
node 1. -/
def Cluster.album : List (Cluster Unit) :=
  [photograph .opened, photograph .reigned, photograph .succeeded]

theorem checker_misses_nothing_album :
    System.newLeader.term ≤ System.firstLeader.term ∧
      (System.firstLeader.log.take System.firstLeader.commitIndex <+:
          System.secondLeader.log.take System.secondLeader.commitIndex ∨
        System.secondLeader.log.take System.secondLeader.commitIndex <+:
          System.firstLeader.log.take System.firstLeader.commitIndex) :=
  have haccepted : exec accept (freshBooks 3) album =
      some ((exec accept (freshBooks 3) album).get (by decide +kernel)) :=
    (Option.some_get _).symm
  have hnew : Shown 3 album 0 0 System.newLeader :=
    ⟨by decide, _, rfl, System.node_newLeader⟩
  have hfirst : Shown 3 album 1 0 System.firstLeader :=
    ⟨by decide, _, rfl, System.node_firstLeader⟩
  have hsecond : Shown 3 album 2 1 System.secondLeader :=
    ⟨by decide, _, rfl, System.node_secondLeader⟩
  have h := checker_misses_nothing haccepted
  ⟨h.2.1 0 1 0 _ _ (by decide) hnew hfirst, (h.2.2.1 1 2 0 1 _ _ hfirst hsecond).2.2⟩

/-! ## Runs of the simulator -/

theorem bootAll_books (h : bootAll ids c = .ok c') : c'.books = c.books := by
  induction ids generalizing c with
  | nil =>
    cases h
    rfl
  | cons i is ih =>
    obtain ⟨c₁, hboot, h⟩ := Checked.bind_eq_ok.mp h
    obtain ⟨n, _, hn⟩ := Checked.bind_eq_ok.mp hboot
    cases hn
    have hrest := ih h
    exact hrest

variable [Channel χ] {carried : χ → List UInt8 → Prop} {seen : List (Cluster χ)}

theorem apply_accepted (hχ : Channel.Faithful χ carried) (h : Watched carried seen c) {op : Op}
    (hsized : op.Sized) (hr : c.apply op = .ok (c', .ok ())) :
    exec accept c.books (c.checked op) = some c'.books := by
  obtain ⟨a, s, ht, _⟩ := h
  by_cases hstep : ∃ d, op = .step d
  · obtain ⟨d, rfl⟩ := hstep
    obtain ⟨⟨c₁, r₁⟩, hadvance, hr⟩ := Checked.bind_eq_ok.mp hr
    obtain ⟨rfl, _, _, _, _, hbooks⟩ := advance_quiet hχ ht hadvance
    have hcheck : c₁.checkInvariants = (c', .ok ()) := Except.ok.inj hr
    have hchecked : c.checked (.step d) = [c₁] := by simp [checked, hadvance]
    rw [hchecked, exec_singleton, ← hbooks, accept, withBooks_self, hcheck]
  · have hop : ∀ d, op ≠ .step d := not_exists.mp hstep
    obtain ⟨_, _, _, _, _, hbooks⟩ := call_quiet hχ ht hsized hop hr
    rw [checked_of_ne_step hop, hbooks]
    rfl

/-- The clusters that are checked in a run without a report are accepted one after the other. -/
theorem run_accepted (hχ : Channel.Faithful χ carried) {ops : List Op}
    (hsized : ∀ op ∈ ops, op.Sized) (h : Watched carried seen c) (hfresh : ¬ StaleLeader seen)
    (hquiet : Throughout next Quiet c ops) (hrun : exec next c ops = some c') :
    exec accept c.books (c.trace ops) = some c'.books := by
  induction ops generalizing seen c with
  | nil =>
    cases hrun
    rfl
  | cons op ops ih =>
    obtain ⟨hop, hops⟩ := List.forall_mem_cons.mp hsized
    obtain ⟨hq, hrest⟩ := throughout_cons.mp hquiet
    obtain ⟨c₁, hnext, hrun⟩ := exec_cons_eq_some.mp hrun
    obtain ⟨r, hr⟩ := next_eq_some hnext
    obtain rfl := (quiet_iff hr).mp hq
    obtain ⟨hiff, hwatched⟩ := apply_quiet_iff hχ h hfresh hop hr
    have htrace : c.trace (op :: ops) = c.checked op ++ c₁.trace ops := by simp [trace, hnext]
    rw [htrace, exec_append_eq_some]
    exact ⟨c₁.books, apply_accepted hχ h hop hr,
      ih hops (hwatched rfl) (hiff.mp rfl) (hrest c₁ hnext) hrun⟩

/-- What the checker cannot miss therefore holds along every run of the simulator that reports
nothing. -/
theorem quiet_run_accepted (hχ : Channel.Faithful χ carried) {cfg : ClusterConfig}
    {c₀ : Cluster χ} (hnew : Cluster.new cfg = .ok c₀) {ops : List Op}
    (hsized : ∀ op ∈ ops, op.Sized) (hquiet : Throughout next Quiet c₀ ops)
    (hrun : exec next c₀ ops = some c') :
    exec accept (freshBooks cfg.n) (c₀.trace ops) = some c'.books := by
  have hbooks : c₀.books = freshBooks cfg.n := bootAll_books hnew
  rw [← hbooks]
  refine run_accepted hχ hsized (new_watched hχ hnew) ?_ hquiet hrun
  rintro ⟨before, x, after, he, _⟩
  simp at he

end Landsraad
