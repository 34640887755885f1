import EstarGo.Gtp.TimePolicy
import EstarGo.Lib.TopTwo
import EstarGo.Player.Means
import Mathlib.Data.List.Perm.Subperm

/-!
# The early exit

Under the time policy `rollout()` ends before its time is up once the most
visited child of the root leads the second by more than half the iterations that
are left.  The iterations that are left are not the only visits to come: a
request is counted when it is sent and visits its edges with the reply.  So a
lead is kept by whatever the search still does as long as the iterations counted
from here on and the requests without a reply are fewer than the lead.

## Main definitions

* `Player.outOfReach` — the test of the early exit.
* `Later` — what a search keeps.
* `Player.Leads` — one child has strictly the most visits.

## Main results

* `visits_le_of_search`: how far a child's visits grow over a search.
* `early_exit_keeps_leader`: what the test guarantees.

## Design notes

**One leader for all searches.**  The leader is a child of the root at the exit,
and is named before the search that would have followed.  That it leads already
then is part of the result: the test is passed only by a lead.
-/

namespace EstarGo

open Verif

variable {B K : Type}

/-- The visits of the root's children, as the loop of `rollout()` reads them,
child by child.  A root that is not opened has none, and the two greatest counts
keep their first value. -/
def Player.childVisits (s : Player B K) (root : ℕ) : List ℤ :=
  ((s.tree.nodes root).nexts.getD []).map fun c => (s.tree.visits c : ℤ)

/-- `left_rollout/f_early < max_n - sec_n`, the test of the early exit.  The
loop makes it where `time_policy == 1`, `max == 1` and the root has a `total_n`
above 100. -/
def Player.outOfReach (s : Player B K) (root : ℕ) (dynamicRollout rolloutInTurn : ℤ) : Bool :=
  let top := topTwo (-1) (s.childVisits root)
  let leftRollout := dynamicRollout - rolloutInTurn
  (leftRollout : ℚ) / fEarly < (top.1 - top.2 : ℤ)

/-! ## Later states

Nodes are added and leaves are settled; nothing is taken back. -/

/-- What a search keeps: the root, the pointers of the nodes there were, and
what is backed up.  Between the two states any number of iterations and replies
may lie, but no command. -/
structure Later (s s' : Player B K) : Prop where
  root : s'.root = s.root
  father : ∀ u < s.tree.next, s'.tree.father u = s.tree.father u
  settled : ∀ u < s.tree.next, (s.tree.nodes u).settled = true → (s'.tree.nodes u).settled = true
  next : s.tree.next ≤ s'.tree.next
  counted : ∃ new, s'.counted = s.counted ++ new

namespace Later

variable {s s' s'' : Player B K}

theorem refl (s : Player B K) : Later s s :=
  ⟨rfl, fun _ _ => rfl, fun _ _ => id, le_rfl, [], (List.append_nil _).symm⟩

theorem trans (h : Later s s') (h' : Later s' s'') : Later s s'' := by
  obtain ⟨new, hnew⟩ := h.counted
  obtain ⟨new', hnew'⟩ := h'.counted
  refine ⟨h'.root.trans h.root, fun u hu => ?_, fun u hu hset => ?_, h.next.trans h'.next,
    new ++ new', by rw [hnew', hnew, List.append_assoc]⟩
  · exact (h'.father u (hu.trans_le h.next)).trans (h.father u hu)
  · exact h'.settled u (hu.trans_le h.next) (h.settled u hu hset)

/-- A step that keeps the pointers, the answers and the results. -/
theorem of_sameShape (shape : Tree.SameShape s.tree s'.tree) (root : s'.root = s.root)
    (result : ∀ v, (s'.tree.nodes v).result = (s.tree.nodes v).result) (new : List ℕ)
    (counted : s'.counted = s.counted ++ new) : Later s s' := by
  refine ⟨root, fun u _ => ?_, fun u _ hset => ?_, shape.next.ge, new, counted⟩
  · rw [shape.father]
  · rwa [Node.settled, result, shape.evalReady]

end Later

section Search

variable [Field K] [LinearOrder K] {P : Pachi B} {cfg : Settings K} {s s' : Player B K}

/-- A step of a search, by its outcome. -/
theorem later_step {a : Action K} (wf : Structured s) (search : a.isCommand = false)
    (h : s.step P cfg a = some s') : Later s s' := by
  cases moves_of_step h with
  | select root max remain t leaf board max' hroot found =>
      obtain ⟨path, -, rfl⟩ := wf.exists_path found
      refine .of_sameShape (Tree.SameShape.of_addPathVl _ _ _) rfl (fun v => ?_) []
        (List.append_nil _).symm
      rw [Tree.nodes_addPathVl]
  | repetition i sel hsel flag =>
      exact .of_sameShape (Tree.SameShape.of_modify _ (·.setRepetition true) fun _ => rfl) rfl
        (Tree.modify_field (·.result) (fun nd => nd.setRepetition true) (fun _ => rfl) _) []
        (List.append_nil _).symm
  | finished i sel hsel flag result =>
      refine .of_sameShape (wf.shape_finished sel.leaf _ _) rfl (fun v => ?_) [sel.leaf] rfl
      have desc := (wf.mark sel.leaf false).wf.descending_lock
      rw [Tree.nodes_mctsBackUpdate desc]
      exact Tree.modify_field (·.result) (fun nd => nd.setRepetition false) (fun _ => rfl) _ _
  | revisit i sel hsel flag result terminate sent =>
      exact .of_sameShape
        (Tree.SameShape.of_modify _ (fun nd => (nd.setRepetition false).visitAgain) fun _ => rfl)
        rfl (Tree.modify_field (·.result) (fun nd => (nd.setRepetition false).visitAgain)
          (fun _ => rfl) _) [] (List.append_nil _).symm
  | request i sel hsel flag result terminate sent rq hrq =>
      exact .of_sameShape
        (Tree.SameShape.of_modify _ (fun nd => (nd.setRepetition false).send) fun _ => rfl)
        rfl (Tree.modify_field (·.result) (fun nd => (nd.setRepetition false).send)
          (fun _ => rfl) _) [sel.leaf] rfl
  | reply i rq value policy hrq =>
      obtain ⟨hleaf, hnexts⟩ := wf.unexpanded hrq
      have old {u : ℕ} (hu : u < s.tree.next) :
          ((s.tree.answer rq.leaf rq.trompTaylor rq.vl (value * rq.minMax)
            (keptItems cfg policy)).nodes u).father = (s.tree.nodes u).father := by
        rw [Tree.nodes_answer_of_lt wf.wf hleaf hnexts hu]
      refine ⟨rfl, fun u hu => old hu, fun u hu hset => ?_, ?_, [], (List.append_nil _).symm⟩
      · rw [Player.evaluateCallback, Tree.nodes_answer_of_lt wf.wf hleaf hnexts hu]
        by_cases hne : u = rq.leaf
        · simp [Node.settled, hne]
        · simpa [Node.settled, hne] using hset
      · rw [Player.evaluateCallback, Tree.next_answer]
        exact Nat.le_add_right _ _
  | freshRoot | resigned => cases search
  | childRoot _ _ _ _ _ _ _ command => exact (Action.not_search_of_command command search).elim
  | recycle v dropped =>
      exact .of_sameShape (Tree.SameShape.of_modify v Node.expireFather fun _ => rfl) rfl
        (Tree.modify_field (·.result) Node.expireFather (fun _ => rfl) _) []
        (List.append_nil _).symm
  | stopped => exact ⟨rfl, fun _ _ => rfl, fun _ _ => id, le_rfl, [], (List.append_nil _).symm⟩
  | ignored => exact Later.refl s

/-- A search leads to a later state, with its accounts. -/
theorem later_run {bs : List (Action K)} (wf : Structured s) (hs : Accounted s)
    (search : ∀ b ∈ bs, b.isCommand = false)
    (run : (playerMachine P cfg).exec s bs = some s') :
    Structured s' ∧ Accounted s' ∧ Later s s' :=
  (playerMachine P cfg).invariant (G := fun _ b => b.isCommand = false)
    (I := fun s' => Structured s' ∧ Accounted s' ∧ Later s s')
    (fun ⟨wf, hs, later⟩ hb h =>
      ⟨structured_step wf h, accounted_step wf hs h, later.trans (later_step wf hb h)⟩)
    ⟨wf, hs, Later.refl s⟩ ((playerMachine P cfg).guarded_of_forall_mem search _) run

omit [LinearOrder K] in
/-- Below the root, the visits of an edge are the iterations it has counted. -/
theorem Accounted.visits_eq (hs : Accounted s) {root c : ℕ} (hroot : s.root = some root)
    (below : Below s.tree.father c root) : s.tree.visits c = (s.passed c).length := by
  have visits : s.tree.visits c = (s.tree.tally c).1 := by
    rw [Tree.visits, Tree.tally]
    cases (s.tree.nodes c).edge <;> rfl
  rw [visits, hs.tally root hroot c below, s.sum_share]

omit [LinearOrder K] in
/-- The counted iterations an edge below the root has yet to count are
unanswered requests. -/
theorem Accounted.countP_waiting_le (wf : Structured s) (hs : Accounted s) {root c : ℕ}
    (hroot : s.root = some root) (below : Below s.tree.father c root) :
    s.counted.countP (fun u => reaches s.tree.father u u c && !(s.tree.nodes u).settled) ≤
      s.unanswered := by
  have waits {u : ℕ} (h : (reaches s.tree.father u u c && !(s.tree.nodes u).settled) = true) :
      AtOrBelow s.tree.father u c ∧ (s.tree.nodes u).result = 0 ∧
        (s.tree.nodes u).evalReady = false := by
    simpa [Node.settled, reaches_iff wf.wf.descending] using h
  rw [List.countP_eq_length_filter, Player.unanswered, List.countP_eq_length_filter,
    ← List.length_map Request.leaf]
  refine (List.Nodup.subperm ?_ fun u hu => ?_).length_le
  · rw [List.nodup_iff_count_le_one]
    intro u
    by_cases h : (reaches s.tree.father u u c && !(s.tree.nodes u).settled) = true
    · refine (List.filter_sublist.count_le u).trans ?_
      rw [hs.once u (waits h).2.1]
      split <;> omega
    · have absent : u ∉ s.counted.filter fun u =>
          reaches s.tree.father u u c && !(s.tree.nodes u).settled := fun mem =>
        h (List.mem_filter.mp mem).2
      rw [List.count_eq_zero_of_not_mem absent]
      exact Nat.zero_le 1
  · obtain ⟨mem, h⟩ := List.mem_filter.mp hu
    obtain ⟨above, result, unready⟩ := waits h
    have sent : (s.tree.nodes u).rqSent = true := by
      by_contra unsent
      have count := hs.once u result
      rw [if_neg unsent] at count
      exact List.count_eq_zero.mp count mem
    obtain ⟨rq, hrq, rfl⟩ := List.mem_map.mp (wf.pending u sent unready)
    refine List.mem_map_of_mem (List.mem_filter.mpr ⟨hrq, ?_⟩)
    exact (wf.belowRoot_iff hroot).mpr (above.trans_below below)

omit [LinearOrder K] in
/-- **The visits of a search.**  An edge below the root loses no visit, and
gains at most one for each request that was without a reply and for each
iteration counted since.  The first are visits that were due already when the
test was made. -/
theorem visits_le_of_search (wf : Structured s) (hs : Accounted s) (wf' : Structured s')
    (hs' : Accounted s') (later : Later s s') {root c : ℕ} {new : List ℕ}
    (hroot : s.root = some root) (below : Below s.tree.father c root)
    (hnew : s'.counted = s.counted ++ new) :
    s.tree.visits c ≤ s'.tree.visits c ∧
      s'.tree.visits c ≤ s.tree.visits c + (s.unanswered + new.length) := by
  have line {u v : ℕ} (hu : u < s.tree.next) :
      AtOrBelow s'.tree.father u v ↔ AtOrBelow s.tree.father u v :=
    atOrBelow_congr (fun a b ha h => (wf.wf.descending a b h).trans ha) later.father hu
  have below' : Below s'.tree.father c root := by
    obtain ⟨f, hf, above⟩ := id below
    have hc := wf.wf.lt_next_of_father hf
    refine ⟨f, (later.father c hc).trans hf, (line ?_).mpr above⟩
    exact (wf.wf.descending c f hf).trans hc
  have reach {u : ℕ} (hu : u ∈ s.counted) :
      reaches s'.tree.father u u c = reaches s.tree.father u u c := by
    rw [Bool.eq_iff_iff, reaches_iff wf'.wf.descending le_rfl, reaches_iff wf.wf.descending le_rfl,
      line (hs.old u hu)]
  rw [hs.visits_eq hroot below, hs'.visits_eq (later.root.trans hroot) below', Player.passed,
    Player.passed, hnew, List.filter_append, List.length_append, ← List.countP_eq_length_filter,
    ← List.countP_eq_length_filter, ← List.countP_eq_length_filter]
  have kept : s.counted.countP (fun u => reaches s.tree.father u u c &&
      (s.tree.nodes u).settled) ≤ s.counted.countP fun u =>
        reaches s'.tree.father u u c && (s'.tree.nodes u).settled := by
    refine List.countP_mono_left fun u hu h => ?_
    rw [Bool.and_eq_true] at h ⊢
    exact ⟨(reach hu).trans h.1, later.settled u (hs.old u hu) h.2⟩
  have gained : s.counted.countP (fun u => reaches s'.tree.father u u c &&
      (s'.tree.nodes u).settled) ≤
        s.counted.countP (fun u => reaches s.tree.father u u c && (s.tree.nodes u).settled) +
          s.counted.countP fun u => reaches s.tree.father u u c && !(s.tree.nodes u).settled := by
    have split (p q : ℕ → Bool) : s.counted.countP p =
        s.counted.countP (fun u => p u && q u) + s.counted.countP fun u => p u && !q u := by
      rw [List.countP_eq_countP_filter_add s.counted p q, List.countP_filter, List.countP_filter]
    rw [← split]
    refine List.countP_mono_left fun u hu h => ?_
    rw [Bool.and_eq_true] at h
    exact (reach hu).symm.trans h.1
  have waiting := hs.countP_waiting_le wf hroot below
  have fresh := List.countP_le_length (l := new)
    (p := fun u => reaches s'.tree.father u u c && (s'.tree.nodes u).settled)
  omega

/-- One child has strictly the most visits, among the children of the root.
Nothing is said of how many visits it has more than the next one. -/
def Player.Leads (s : Player B K) (root leader : ℕ) : Prop :=
  ∀ c ∈ (s.tree.nodes root).nexts.getD [], c ≠ leader → s.tree.visits c < s.tree.visits leader

/-- **The early exit keeps the leader.**  Where a running search passes the test
that ends it early, one child of the root has strictly the most visits, and no
search that would have followed changes that, as long as the iterations it
counts and the requests now without a reply together are at most half the
iterations that were left. -/
theorem early_exit_keeps_leader {board : GoBoard B} {as : List (Action K)} {root : ℕ}
    {dynamicRollout rolloutInTurn : ℤ}
    (run : (playerMachine P cfg).exec (Player.start board) as = some s)
    (hroot : s.root = some root)
    (running : rolloutInTurn < dynamicRollout)
    (exit : s.outOfReach root dynamicRollout rolloutInTurn = true) :
    ∃ leader ∈ (s.tree.nodes root).nexts.getD [], s.Leads root leader ∧
      ∀ (bs : List (Action K)) (s' : Player B K), (∀ b ∈ bs, b.isCommand = false) →
        (playerMachine P cfg).exec s bs = some s' →
        ∃ new, s'.counted = s.counted ++ new ∧
          (fEarly * (s.unanswered + new.length) ≤ dynamicRollout - rolloutInTurn →
            ∀ c ∈ (s.tree.nodes root).nexts.getD [], c ≠ leader →
              s'.tree.visits c < s'.tree.visits leader) := by
  obtain ⟨wf, hs⟩ := accounted_run run
  have lead : dynamicRollout - rolloutInTurn < fEarly *
      ((topTwo (-1) (s.childVisits root)).1 - (topTwo (-1) (s.childVisits root)).2) := by
    have gap := of_decide_eq_true exit
    rw [div_lt_iff₀ (by norm_num [fEarly]), mul_comm] at gap
    exact_mod_cast gap
  rw [fEarly] at lead ⊢
  have above : ∀ c ∈ (s.tree.nodes root).nexts.getD [], (-1 : ℤ) < s.tree.visits c :=
    fun c _ => by omega
  obtain ⟨leader, mem, first, others⟩ := exists_leader_of_lt above
    (by simp only [Player.childVisits] at lead; omega)
  have below {c : ℕ} (hc : c ∈ (s.tree.nodes root).nexts.getD []) :
      Below s.tree.father c root := by
    cases hnexts : (s.tree.nodes root).nexts with
    | none => simp [hnexts] at hc
    | some nexts =>
        rw [hnexts] at hc
        exact below_of_father (wf.wf.father_of_mem hnexts hc)
  rw [Player.childVisits] at lead
  refine ⟨leader, mem, fun c hc ne => ?_, fun bs s' search rest => ?_⟩
  · have second := others c hc ne
    omega
  obtain ⟨wf', hs', later⟩ := later_run wf hs search rest
  obtain ⟨new, hnew⟩ := later.counted
  refine ⟨new, hnew, fun few c hc ne => ?_⟩
  have second := others c hc ne
  have gains := (visits_le_of_search wf hs wf' hs' later hroot (below hc) hnew).2
  have keeps := (visits_le_of_search wf hs wf' hs' later hroot (below mem) hnew).1
  omega

end Search

/-- A search that opens the root and follows one of its children. -/
def followedGame : List (Action ℚ) :=
  .select 1 9 :: .decide 0 :: .reply 0 (1 / 2) [⟨72, 1⟩, ⟨-1, 0⟩] ::
    (List.replicate 5 [.select 1 9, .decide 0, .reply 0 (1 / 2) [⟨-1, 1⟩]]).flatten

/-- Three visits ahead with four iterations left, the test lets the search end.
The search that goes on counts one more iteration, and the leader is the same
child. -/
theorem early_exit_keeps_leader_followed : ∃ s s' : Player Stones ℚ,
    s.childVisits 0 = [4, 1] ∧
      (playerMachine pachi shippedSettings).exec s [.select 1 5, .decide 0] = some s' ∧
      ∃ leader ∈ (s.tree.nodes 0).nexts.getD [], s.Leads 0 leader ∧
        ∃ new, s'.counted = s.counted ++ new ∧
          (fEarly * (s.unanswered + new.length) ≤ 8 - 4 →
            ∀ c ∈ (s.tree.nodes 0).nexts.getD [], c ≠ leader →
              s'.tree.visits c < s'.tree.visits leader) := by
  have first : ((playerMachine pachi shippedSettings).exec newGame followedGame).map
      (fun s => (s.root, s.childVisits 0, s.outOfReach 0 8 4)) =
        some (some 0, [4, 1], true) := by decide +kernel
  obtain ⟨s, run, hs⟩ := Option.map_eq_some_iff.mp first
  simp only [Prod.mk.injEq] at hs
  obtain ⟨hroot, visits, exit⟩ := hs
  have second : ((playerMachine pachi shippedSettings).exec newGame
      (followedGame ++ [.select 1 5, .decide 0])).isSome = true := by decide +kernel
  rw [Verif.Machine.exec_append, run, Option.bind_some] at second
  obtain ⟨s', rest⟩ := Option.isSome_iff_exists.mp second
  obtain ⟨leader, mem, leads, keeps⟩ := early_exit_keeps_leader run hroot (by decide) exit
  exact ⟨s, s', visits, rest, leader, mem, leads, keeps _ s' (by decide) rest⟩

end EstarGo
