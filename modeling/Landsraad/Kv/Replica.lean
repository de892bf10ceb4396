import Landsraad.Kv.Store
import Landsraad.Raft.Acknowledgement
import Landsraad.Raft.Delivery
import Landsraad.Raft.Levelling
import Landsraad.Raft.Serialization

/-!
# Replicas of the key-value store

Each node applies what `takeCommitted` hands it. Where a commit index was pulled back, entries are
handed out again, and until delivery has caught up the store mixes older values with newer ones.
Once it has, it is the sequential store after as many entries as were ever delivered.
-/

namespace Landsraad.Kv

open ReplicatedLog ReplicatedLog.Ledger OrderedStore

/-- The highest index delivered. -/
def furthest (d : List (Nat × Entry)) : Nat := (d.map Prod.fst).foldr max 0

/-- The store that a node has made of what it was delivered. -/
def fed (d : List (Nat × Entry)) : Store := Store.new.applyAll (d.map Prod.snd)

section

variable {s : Store} {xs ys : List Entry} {d d' : List (Nat × Entry)} {j k : Nat}

theorem Store.applyAll_append (s : Store) (xs ys : List Entry) :
    s.applyAll (xs ++ ys) = (s.applyAll xs).applyAll ys := List.foldl_append

theorem replay_append (xs ys : List Entry) : replay (xs ++ ys) = (replay xs).applyAll ys :=
  Store.applyAll_append _ xs ys

theorem fed_append (d d' : List (Nat × Entry)) :
    fed (d ++ d') = (fed d).applyAll (d'.map Prod.snd) := by
  rw [fed, List.map_append, Store.applyAll_append]
  rfl

theorem furthest_append (d d' : List (Nat × Entry)) :
    furthest (d ++ d') = max (furthest d) (furthest d') := by
  induction d with
  | nil => simp [furthest]
  | cons p d ih =>
    simp only [furthest, List.cons_append, List.map_cons, List.foldr_cons] at ih ⊢
    rw [ih, max_assoc]

theorem drop_split (xs : List Entry) (hjk : j ≤ k) :
    xs.drop j = (xs.take k).drop j ++ xs.drop k := by
  rcases Nat.le_total k xs.length with hk | hk
  · rw [← List.drop_append_of_le_length, List.take_append_drop]
    rw [List.length_take, min_eq_left hk]
    exact hjk
  · rw [List.take_of_length_le hk, List.drop_eq_nil_of_le hk, List.append_nil]

/-- A store that the entries from position `k` on would bring up to date, would also be brought
there by those from an earlier position on. -/
theorem applyAll_drop_of_le (h : s.applyAll (xs.drop k) = replay xs) (hjk : j ≤ k) :
    s.applyAll (xs.drop j) = replay xs := by
  have hsplit := drop_split xs hjk
  have hall : xs = xs.take j ++ ((xs.take k).drop j ++ xs.drop k) := by
    rw [← hsplit, List.take_append_drop]
  have hstart : replay xs = (replay (xs.take j)).applyAll ((xs.take k).drop j ++ xs.drop k) := by
    conv_lhs => rw [hall, replay_append]
  apply Store.ext
  rw [hstart] at h ⊢
  have hget := congrArg Store.get h
  rw [Store.get_applyAll, Store.get_applyAll, writes_append] at hget
  rw [hsplit, Store.get_applyAll, Store.get_applyAll, writes_append]
  exact LogOp.applyAll_rewind hget

theorem furthest_le : furthest d ≤ k ↔ ∀ p ∈ d, p.1 ≤ k := by
  induction d with
  | nil => simp [furthest]
  | cons p d ih =>
    simp only [furthest, List.map_cons, List.foldr_cons, max_le_iff, List.forall_mem_cons] at ih ⊢
    rw [ih]

theorem le_furthest {p : Nat × Entry} (h : p ∈ d) : p.1 ≤ furthest d :=
  furthest_le.mp le_rfl p h

end

/-! ## One batch -/

section

variable {size : Nat} {acts acts' : List Action} {a a' : History} {n n' : Node Disk}
  {d batch : List (Nat × Entry)}

/-- What `d` has delivered of the log is committed, and the entries from the applied index on would
bring the store up to date with it. -/
structure Fed (size : Nat) (acts : List Action) (a : History) (n : Node Disk)
    (d : List (Nat × Entry)) : Prop where
  applied : n.appliedIndex ≤ furthest d
  certified : a.Certified (quorums size) n.term n.log (furthest d)
  agree : AgreeUpTo (furthest d) n.log (System.committedIn size acts)
  rest : (fed d).applyAll ((n.log.take (furthest d)).drop n.appliedIndex) =
    replay (n.log.take (furthest d))

theorem Fed.fresh (h : n.appliedIndex = 0) : Fed size acts a n [] where
  applied := by rw [h]; exact Nat.zero_le _
  certified := .zero _ _
  agree := .zero _ _
  rest := by simp [furthest, fed, replay, Store.applyAll]

theorem Fed.later (h : Fed size acts a n d) (happlied : n'.appliedIndex = n.appliedIndex)
    (hlog : AgreeUpTo (furthest d) n'.log n.log)
    (hcert : a'.Certified (quorums size) n'.term n'.log (furthest d))
    (hacts : System.committedIn size acts <+: System.committedIn size acts') :
    Fed size acts' a' n' d where
  applied := by rw [happlied]; exact h.applied
  certified := hcert
  agree := hlog.trans (h.agree.prefix_right hacts)
  rest := by rw [happlied, hlog.take_eq]; exact h.rest

theorem entries_of_take (htake : n.takeCommitted = .ok (n', batch)) :
    batch.map Prod.snd = (n.log.take n.commitIndex).drop n.appliedIndex := by
  obtain ⟨_, hlen, hbatch⟩ := Node.takeCommitted_ok htake
  apply List.ext_getElem?
  intro k
  rw [List.getElem?_map, List.getElem?_drop, List.getElem?_take]
  cases hp : batch[k]? with
  | none =>
    have hk := List.getElem?_eq_none_iff.mp hp
    rw [if_neg (by omega)]
    rfl
  | some p =>
    have hk := (List.getElem?_eq_some_iff.mp hp).1
    rw [if_pos (by omega), (hbatch k p hp).2]
    rfl

theorem furthest_of_take (htake : n.takeCommitted = .ok (n', batch)) :
    furthest batch = if n.appliedIndex < n.commitIndex then n.commitIndex else 0 := by
  obtain ⟨_, hlen, hbatch⟩ := Node.takeCommitted_ok htake
  split
  · next hlt =>
    apply le_antisymm
    · apply furthest_le.mpr
      intro p hp
      obtain ⟨k, hk, rfl⟩ := List.getElem_of_mem hp
      have := (hbatch k _ (List.getElem?_eq_getElem hk)).1
      omega
    · have hlast : batch.length - 1 < batch.length := by omega
      have hindex := (hbatch _ _ (List.getElem?_eq_getElem hlast)).1
      have := le_furthest (List.getElem_mem hlast)
      omega
  · next hge =>
    have hnil : batch = [] := List.eq_nil_of_length_eq_zero (by omega)
    subst hnil
    rfl

/-- Taking a batch, wherever it starts, leaves a store that the rest brings up to date. -/
theorem Fed.take (h : Fed size acts a n d) (htake : n.takeCommitted = .ok (n', batch))
    (hcommit : a.Certified (quorums size) n.term n.log n.commitIndex)
    (hagree : AgreeUpTo n.commitIndex n.log (System.committedIn size acts)) :
    Fed size acts a n' (d ++ batch) := by
  have hentries := entries_of_take htake
  have hfurthest := furthest_of_take htake
  obtain ⟨rfl, hlen, _⟩ := Node.takeCommitted_ok htake
  rcases Nat.lt_or_ge n.appliedIndex n.commitIndex with hlt | hge
  swap
  · -- the batch is empty, and the commit index may have been pulled back
    have hnil : batch = [] := List.eq_nil_of_length_eq_zero (by omega)
    subst hnil
    rw [List.append_nil]
    exact ⟨hge.trans h.applied, h.certified, h.agree, applyAll_drop_of_le h.rest hge⟩
  rw [if_pos hlt] at hfurthest
  have hmax : furthest (d ++ batch) = max (furthest d) n.commitIndex := by
    rw [furthest_append, hfurthest]
  rcases Nat.le_total n.commitIndex (furthest d) with hle | hle
  · rw [max_eq_left hle] at hmax
    refine ⟨by rw [hmax]; exact hle, by rw [hmax]; exact h.certified, by rw [hmax]; exact h.agree,
      ?_⟩
    have hsplit := drop_split (n.log.take (furthest d)) hlt.le
    rw [List.take_take, min_eq_left hle] at hsplit
    rw [hmax, fed_append, hentries, ← Store.applyAll_append, ← hsplit]
    exact h.rest
  · rw [max_eq_right hle] at hmax
    refine ⟨by rw [hmax], by rw [hmax]; exact hcommit, by rw [hmax]; exact hagree, ?_⟩
    have hsplit := drop_split (n.log.take n.commitIndex) h.applied
    rw [List.take_take, min_eq_left hle] at hsplit
    have hdone : (n.log.take n.commitIndex).drop n.commitIndex = [] :=
      List.drop_eq_nil_of_le (by rw [List.length_take]; exact min_le_left _ _)
    have hall : n.log.take n.commitIndex =
        n.log.take (furthest d) ++ (n.log.take n.commitIndex).drop (furthest d) := by
      have htakes : n.log.take (furthest d) = (n.log.take n.commitIndex).take (furthest d) := by
        rw [List.take_take, min_eq_left hle]
      rw [htakes, List.take_append_drop]
    rw [hmax, hdone, fed_append, hentries, hsplit, Store.applyAll_append, h.rest,
      ← replay_append, ← hall]
    rfl

end

/-! ## Whole runs -/

section

variable {size : Nat} {acts : List Action} {a a' : History} {s s' : System} {act : Action}

/-- Every live node is fed what the run has committed. -/
def AllFed (size : Nat) (acts : List Action) (a : History) (s : System) : Prop :=
  ∀ i n d, s.slots i = .up n d → Fed size acts a n d

theorem agree_committedIn (hsim : SystemSim size a s) (h : System.initial.run size acts = some s)
    {i : Nat} {n : Node Disk} (hn : s.node i = some n) :
    AgreeUpTo n.commitIndex n.log (System.committedIn size acts) :=
  .of_take_isPrefix (hsim.node hn).commit.le_length (committedLog_isPrefix List.prefix_rfl h hn)

theorem AllFed.step (hsim : SystemSim size a s) (hperf : Performed size act a s a' s')
    (h : System.initial.run size acts = some s) (hp : s.perform size act = some s')
    (hfed : AllFed size acts a s) : AllFed size (acts ++ [act]) a' s' := by
  intro i n' d' hslot'
  have hnode' := hperf.sim.node (System.node_of_up hslot')
  have hgrows : System.committedIn size acts <+: System.committedIn size (acts ++ [act]) :=
    committedIn_mono (List.prefix_append acts [act])
  -- a node that was live before keeps what was delivered
  have hkeep : ∀ n, s.slots i = .up n d' → n'.appliedIndex = n.appliedIndex →
      Fed size (acts ++ [act]) a' n' d' := by
    intro n hslot happlied
    have hnode := hsim.node (System.node_of_up hslot)
    have hc := (hfed i n d' hslot).certified
    rw [← hnode.epoch, ← hnode.log] at hc
    have hag := hc.agree_later hsim.inv hperf.steps
    have hc' := hc.steps hsim.inv hperf.steps
    rw [hnode'.log, hnode.log] at hag
    rw [hnode'.epoch, hnode'.log] at hc'
    exact (hfed i n d' hslot).later happlied hag hc' hgrows
  cases perform_came hp hslot' with
  | same slot => exact hkeep n' slot rfl
  | called n c out answer slot _ call => exact hkeep n slot (Node.call_shifts call).applied
  | took n d batch slot _ take delivered =>
    subst delivered
    have hnode := hsim.node (System.node_of_up slot)
    have hext := hperf.steps.extends hsim.inv
    have hold := hfed i n d slot
    have hagree := (agree_committedIn hsim h (System.node_of_up slot)).prefix_right hgrows
    exact (hold.later rfl (.refl hold.agree.1) (hold.certified.mono hext le_rfl) hgrows).take take
      (hnode.commit.mono hext le_rfl) hagree
  | restarted applied delivered =>
    subst delivered
    exact .fresh applied

theorem run_fed (h : System.initial.run size acts = some s) :
    ∃ a, SystemSim size a s ∧ AllFed size acts a s := by
  induction acts using List.reverseRecOn generalizing s with
  | nil =>
    cases h
    exact ⟨_, .initial size, fun i n d hslot => by cases hslot⟩
  | append_singleton acts act ih =>
    obtain ⟨s₁, h₁, hp⟩ := run_concat_eq_some h
    obtain ⟨a, hsim, hfed⟩ := ih h₁
    obtain ⟨a', hperf⟩ := perform_simulates hsim hp
    exact ⟨a', hperf.sim, hfed.step hsim hperf h₁ hp⟩

/-- At every moment of a run, whatever was delivered to the store of a node, repetitions included:
it is given no index beyond what the run commits, and once its applied index is back at the
furthest index it was given, its store is the sequential one after so many of the committed
entries. Until then, the entries in between would bring it there. -/
theorem replicas_follow_commits {ys : List Action} (hys : ys <+: acts)
    (h : System.initial.run size ys = some s) (i : Nat) (n : Node Disk) (d : List (Nat × Entry))
    (hslot : s.slots i = .up n d) :
    n.appliedIndex ≤ furthest d ∧ furthest d ≤ (System.committedIn size acts).length ∧
      (n.appliedIndex = furthest d →
        fed d = replay ((System.committedIn size acts).take (furthest d))) ∧
      (fed d).applyAll (((System.committedIn size acts).take (furthest d)).drop n.appliedIndex) =
        replay ((System.committedIn size acts).take (furthest d)) := by
  obtain ⟨a, _, hfed⟩ := run_fed h
  have hn := hfed i n d hslot
  have hagree := hn.agree.prefix_right (committedIn_mono hys)
  have hrest := hn.rest
  rw [hagree.take_eq] at hrest
  refine ⟨hn.applied, hagree.2.1, ?_, hrest⟩
  intro hlevel
  have hnil : ((System.committedIn size acts).take (furthest d)).drop n.appliedIndex = [] :=
    List.drop_eq_nil_of_le (by rw [hlevel, List.length_take]; exact min_le_left _ _)
  rw [hnil] at hrest
  exact hrest

end

/-- Node 2 is given the entry at index 2 twice, and has the store of the sequence of commits. -/
theorem replicas_follow_commits_redelivered : ∃ n d, System.redelivered.slots 2 = .up n d ∧
    d.map Prod.fst = [1, 2, 2] ∧ fed d = replay ((System.committedIn 3 (System.opening ++
      System.outrun ++ [System.relapse] ++ System.repetition ++ [.takeCommitted 2])).take 2) := by
  have hslot : ∃ n d, System.redelivered.slots 2 = .up n d ∧ d.map Prod.fst = [1, 2, 2] ∧
      n.appliedIndex = furthest d ∧ furthest d = 2 := ⟨_, _, rfl, by decide +kernel⟩
  obtain ⟨n, d, hslot, hindices, hlevel, hfurthest⟩ := hslot
  have hrun : System.initial.run 3 (System.opening ++ System.outrun ++ [System.relapse] ++
      System.repetition ++ [.takeCommitted 2]) = some System.redelivered := (Option.some_get _).symm
  have hstore := (replicas_follow_commits List.prefix_rfl hrun 2 n d hslot).2.2.1 hlevel
  rw [hfurthest] at hstore
  exact ⟨n, d, hslot, hindices, hstore⟩

/-! ## When everything is committed -/

theorem Fed.caught_up {size : Nat} {acts : List Action} {a : History} {n : Node Disk}
    {d : List (Nat × Entry)} (h : Fed size acts a n d) (hall : n.commitIndex = n.log.length)
    (hroom : n.log.length + 1 < Checked.wordSize)
    (hcommit : a.Certified (quorums size) n.term n.log n.commitIndex)
    (hagree : AgreeUpTo n.commitIndex n.log (System.committedIn size acts)) :
    ∃ n' batch, n.takeCommitted = .ok (n', batch) ∧ fed (d ++ batch) = replay n.log := by
  have happlied : n.appliedIndex ≤ n.log.length := h.applied.trans h.agree.1
  have hreturns : n.takeCommitted.Returns :=
    (Node.takeCommitted_returns (by omega)).mpr fun _ => hall.le
  obtain ⟨⟨n', batch⟩, htake⟩ := hreturns
  have htaken := h.take htake hcommit hagree
  refine ⟨n', batch, htake, ?_⟩
  obtain ⟨rfl, _⟩ := Node.takeCommitted_ok htake
  have hfurthest : furthest (d ++ batch) = n.log.length := by
    apply le_antisymm htaken.agree.1
    rw [← hall]
    exact htaken.applied
  have hrest := htaken.rest
  rw [hfurthest] at hrest
  simp only [List.take_length, hall, List.drop_length] at hrest
  exact hrest

section

variable {size T K L now : Nat} {acts : List Action} {s : System} {l : Node Disk}
  {flight : List Envelope}

/-- A leader of the highest term, with a live majority and room for full batches, needs two
heartbeats to bring every live replica to its own log, whatever the order of the deliveries and
whatever was in flight before. The deliveries after the second are at most two for each peer, and
no heartbeat or delivery is held up. When they are done every live node has the whole log of the
leader, has committed it and can take it, and then has the store of that log: no two differ, and
nothing that the leader accepted is missing. -/
theorem replicas_converge (hrun : System.initial.run size acts = some s)
    (hlead : s.Leads L l T)
    (hlive : ∀ i n, s.node i = some n → n.term ≤ T ∧ 1 ≤ n.cfg.maxBatch)
    (hflight : ∀ e ∈ flight, e ∈ s.sent ∧ e.message.term ≤ T)
    (hroom : Exchange.Roomy K ⟨s, flight⟩) (hdue : l.heartbeatDeadline ≤ now)
    (hnow : l.ClockFits now) :
    ∃ s₀, s.perform size (.call L (.tick now) .returns) = some s₀ ∧
      (∃ bound, ∀ k x, Descent.Chain (Delivers size) k
        ⟨s₀, flight ++ s₀.sent.drop s.sent.length⟩ x → k ≤ bound) ∧
      ∀ k x, Descent.Chain (Delivers size) k ⟨s₀, flight ++ s₀.sent.drop s.sent.length⟩ x →
        x.Flows size ∧
        (x.inFlight = [] → size / 2 + 1 ≤ (x.system.liveNodes size).length →
          ∃ l', x.system.node L = some l' ∧ ∀ now', l'.heartbeatDeadline ≤ now' →
            l'.ClockFits now' →
            ∃ s₁, x.system.perform size (.call L (.tick now') .returns) = some s₁ ∧
              ∀ k' y, Descent.Chain (Delivers size) k'
                ⟨s₁, s₁.sent.drop x.system.sent.length⟩ y →
                k' ≤ 2 * (size - 1) ∧ y.Flows size ∧
                (y.inFlight = [] → ∀ p n d, y.system.slots p = .up n d →
                  n.log = l.log ∧ n.commitIndex = l.log.length ∧
                  ∃ n' batch, n.takeCommitted = .ok (n', batch) ∧
                    fed (d ++ batch) = replay l.log)) := by
  have hspare : s.Spare K := fun i n hn => (hroom.nodes i n hn).batch
  have hword : K + 1 < Checked.wordSize :=
    (Nat.add_le_add_left (hlive L l hlead.1).2 K).trans_lt (hspare L l hlead.1)
  have hfit := batches_fit hrun hlead.1 (hroom.nodes L l hlead.1) (.tick now)
  obtain ⟨s₀, hbeat⟩ := (heartbeat_returns hrun hlead hnow).mpr hfit
  obtain ⟨M, hstart⟩ := heartbeat_replicates hrun hlead hlive hflight hroom.short hword hdue hbeat
  refine ⟨s₀, hbeat, ⟨_, fun k x hchain => hstart.length_le hchain⟩, fun k x hchain => ?_⟩
  have hx := hstart.chain hchain
  have hspare' : x.system.Spare K :=
    System.Spare.chain (heartbeat_spare hspare hbeat) hchain
  refine ⟨hx.flows hspare', fun hempty hmajority => ?_⟩
  obtain ⟨l', hlead', _⟩ := hx.settled hempty
  refine ⟨l', hlead'.1, fun now' hdue' hnow' => ?_⟩
  obtain ⟨s₁, hbeat', hlevels⟩ := hx.levels hspare' hempty hmajority hlead'.1 hdue' hnow'
  refine ⟨s₁, hbeat', fun k' y hchain' => ?_⟩
  obtain ⟨hbound, hflows, ⟨acts', hrun'⟩, hlevel⟩ := hlevels k' y hchain'
  refine ⟨hbound, hflows, fun hnone p n d hslot => ?_⟩
  have hn : y.system.node p = some n := System.node_of_up hslot
  obtain ⟨hlog, hall, hfits⟩ := hlevel hnone p n hn
  obtain ⟨a, hsim, hfed⟩ := run_fed hrun'
  rw [← hlog]
  exact ⟨rfl, hall, (hfed p n d hslot).caught_up hall hfits (hsim.node hn).commit
    (agree_committedIn hsim hrun' hn)⟩

end

/-- The second leader has accepted a put. -/
def instructed : System :=
  (System.succeeded.perform 3
    (.call 1 (.propose 4 (Command.put [107] [118]).encode) .returns)).get (by decide +kernel)

def instructor : Node Disk := (instructed.node 1).get (by decide +kernel)

def prompted : System :=
  (instructed.perform 3 (.call 1 (.tick 60) .returns)).get (by decide +kernel)

/-- Its heartbeat is in flight, and whatever was sent before. -/
def crowded : Exchange :=
  ⟨prompted, instructed.sent ++ prompted.sent.drop instructed.sent.length⟩

def informed : Exchange :=
  (Run.exec (Exchange.deliverFirst 3) crowded (.replicate 56 60)).get (by decide +kernel)

def informer : Node Disk := (informed.system.node 1).get (by decide +kernel)

def reminded : System :=
  (informed.system.perform 3 (.call 1 (.tick 120) .returns)).get (by decide +kernel)

def levelled : Exchange :=
  (Run.exec (Exchange.deliverFirst 3) ⟨reminded, reminded.sent.drop informed.system.sent.length⟩
    (.replicate 4 120)).get (by decide +kernel)

/-- The put reaches the store of the last node, which has rejected attempts of its leader. -/
theorem replicas_converge_instructed :
    ⟨2, 1, .appendResponse 2 false 1⟩ ∈ informed.system.sent ∧
      ∃ n d n' batch, levelled.system.slots 2 = .up n d ∧ n.takeCommitted = .ok (n', batch) ∧
        fed (d ++ batch) = replay instructor.log ∧ (fed (d ++ batch)).get [107] = some [118] := by
  have hrun : System.initial.run 3 (System.opening ++ System.reigning ++ System.succession ++
      [.call 1 (.propose 4 (Command.put [107] [118]).encode) .returns]) = some instructed :=
    run_concat (Run.exec_append_eq_some.mpr ⟨_, System.run_reigned, System.run_succession⟩)
      (Option.some_get _).symm
  have hnodes : ∀ i n, instructed.node i = some n →
      (n.term ≤ 2 ∧ 1 ≤ n.cfg.maxBatch) ∧ n.Roomy 4 := by
    intro i n hn
    obtain ⟨_, hsim, _⟩ := run_simulates (.initial 3) hrun
    have hall : ∀ i < 3, ∀ n ∈ instructed.node i,
        (n.term ≤ 2 ∧ 1 ≤ n.cfg.maxBatch) ∧ n.Roomy 4 := by
      decide +kernel
    exact hall i (hsim.node hn).lt_size n hn
  have hroom : Exchange.Roomy 4 ⟨instructed, instructed.sent⟩ :=
    ⟨fun i n hn => (hnodes i n hn).2, by decide +kernel⟩
  have hlead : instructed.Leads 1 instructor 2 :=
    ⟨(Option.some_get _).symm, by decide +kernel, by decide +kernel⟩
  have hdrain : Run.exec (Exchange.deliverFirst 3) crowded (.replicate 56 60) = some informed :=
    (Option.some_get _).symm
  have hdrain' : Run.exec (Exchange.deliverFirst 3)
      ⟨reminded, reminded.sent.drop informed.system.sent.length⟩ (.replicate 4 120) =
        some levelled :=
    (Option.some_get _).symm
  have hdue : instructor.heartbeatDeadline ≤ 60 := by decide +kernel
  obtain ⟨s₀, hbeat, _, hfirst⟩ := replicas_converge hrun hlead
    (fun i n hn => (hnodes i n hn).1) (by decide +kernel) hroom hdue (by decide +kernel)
  have hprompted : instructed.perform 3 (.call 1 (.tick 60) .returns) = some prompted :=
    (Option.some_get _).symm
  obtain rfl : prompted = s₀ := Option.some.inj (hprompted.symm.trans hbeat)
  obtain ⟨l', hl', hsecond⟩ :=
    (hfirst 56 informed (.of_exec Exchange.deliverFirst_delivers hdrain)).2 (by decide +kernel)
      (by decide +kernel)
  have hinformer : informed.system.node 1 = some informer := (Option.some_get _).symm
  obtain rfl : informer = l' := Option.some.inj (hinformer.symm.trans hl')
  obtain ⟨s₁, hbeat', hlevels⟩ := hsecond 120 (by decide +kernel) (by decide +kernel)
  have hreminded : informed.system.perform 3 (.call 1 (.tick 120) .returns) = some reminded :=
    (Option.some_get _).symm
  obtain rfl : reminded = s₁ := Option.some.inj (hreminded.symm.trans hbeat')
  have hup : ∃ n d, levelled.system.slots 2 = .up n d := ⟨_, _, rfl⟩
  obtain ⟨n, d, hslot⟩ := hup
  obtain ⟨_, _, n', batch, htake, hstore⟩ :=
    (hlevels 4 levelled (.of_exec Exchange.deliverFirst_delivers hdrain')).2.2 (by decide +kernel)
      2 n d hslot
  have hvalue : (replay instructor.log).get [107] = some [118] := by decide +kernel
  exact ⟨by decide +kernel, n, d, n', batch, hslot, htake, hstore, by rw [hstore, hvalue]⟩

end Landsraad.Kv
