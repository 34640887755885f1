import EstarGo.Board.Joining

/-!
# A stone is played

`board_play_outside` goes along the neighbors of the stone: their groups lose a
liberty, those of the color are joined, and those of the opponent are captured
where no liberty is left.  `Playing` is what holds between two neighbors.  Each
step captures at the neighbor as the rules do, so the stones after the loop are
those of the rules.

## Main definitions

* `edges` — the graph of the board, as far as the stone has been connected.
* `Playing` — the invariant of the loop.
* `Captures` — a step that keeps it and captures as the rules do.

## Main results

* `Playing.step`: one neighbor.
* `Playing.run`: the loop over the neighbors.

## Design notes

**Two boards at a time.**  For the rules the stone is on its point before
anything is captured; in the source it comes after the loop.  So the position of
the rules is the stones of the board with the stone placed on them, and the loop
is compared with captures in that position.

**A case for each kind of neighbor**: nothing there, a stone of the color whose
group is joined, merged or known already, a stone of the opponent whose group
lives or dies.  `Playing.step` sorts the neighbor into one of these, and there
is one lemma for each.
-/

namespace EstarGo

open Verif Verif.Go Stones

/-- The neighbors, as far as the stone on `v` has been connected to them.  The
edges between other points are all there. -/
def edges (v : ℕ) (ds : List ℕ) (a b : ℕ) : Prop :=
  (near a b ∧ a ≠ v ∧ b ≠ v) ∨ (a = v ∧ b ∈ ds) ∨ (a ∈ ds ∧ b = v)

section Edges

variable {v d : ℕ} {ds : List ℕ} {s t : ℕ → Option Color} {k : Color}

theorem edges_symm (a b : ℕ) (h : edges v ds a b) : edges v ds b a := by
  rcases h with ⟨hnear, ha, hb⟩ | ⟨ha, hb⟩ | ⟨ha, hb⟩
  · exact .inl ⟨near_symm a b hnear, hb, ha⟩
  · exact .inr (.inr ⟨hb, ha⟩)
  · exact .inr (.inl ⟨hb, ha⟩)

/-- Dealing with one more neighbor adds one edge. -/
theorem edges_concat (v d : ℕ) (ds : List ℕ) :
    edges v (ds ++ [d]) = addEdge (edges v ds) v d := by
  funext a b
  simp only [edges, addEdge, List.mem_append, List.mem_singleton, eq_iff_iff]
  tauto

/-- The links of the other stones are those on the board, whatever the stone has
been connected to. -/
theorem linked_edges (hv : s v ≠ some k) (ht : t v ≠ some k) (agree : ∀ u, u ≠ v → s u = t u) :
    Linked (edges v ds) s k = Linked near t k := by
  funext a b
  refine propext ⟨fun ⟨hadj, ha, hb⟩ => ?_, fun ⟨hadj, ha, hb⟩ => ?_⟩
  · have hav : a ≠ v := fun h => hv (h ▸ ha)
    have hbv : b ≠ v := fun h => hv (h ▸ hb)
    rcases hadj with ⟨hnear, -, -⟩ | ⟨h, -⟩ | ⟨-, h⟩
    · exact ⟨hnear, agree a hav ▸ ha, agree b hbv ▸ hb⟩
    · exact absurd h hav
    · exact absurd h hbv
  · have hav : a ≠ v := fun h => ht (h ▸ ha)
    have hbv : b ≠ v := fun h => ht (h ▸ hb)
    exact ⟨.inl ⟨hadj, hav, hbv⟩, agree a hav ▸ ha, agree b hbv ▸ hb⟩

/-- When all neighbors are connected, the links are those on the board. -/
theorem linked_edges_all (hv : onBoard v = true) (on : ∀ u, s u ≠ none → onBoard u = true)
    (k : Color) : Linked (edges v (foreachNeighbor v)) s k = Linked near s k := by
  have hself := self_not_mem_foreachNeighbor hv
  have on' {u : ℕ} (hu : s u = some k) : onBoard u = true := on u (hu ▸ Option.some_ne_none k)
  funext a b
  refine propext ⟨fun ⟨hadj, ha, hb⟩ => ⟨?_, ha, hb⟩, fun ⟨hadj, ha, hb⟩ => ⟨?_, ha, hb⟩⟩
  · rcases hadj with ⟨hnear, -, -⟩ | ⟨rfl, h⟩ | ⟨h, rfl⟩
    · exact hnear
    · exact ⟨hv, on' hb, h⟩
    · exact near_symm _ _ ⟨hv, on' ha, h⟩
  · by_cases hav : a = v
    · exact .inr (.inl ⟨hav, hav ▸ hadj.2.2⟩)
    · by_cases hbv : b = v
      · exact .inr (.inr ⟨hbv ▸ (near_symm a b hadj).2.2, hbv⟩)
      · exact .inl ⟨hadj, hav, hbv⟩

end Edges

namespace Board

variable {bd bd' : Board} {d u v r : ℕ} {k c : Color} {ok : Prop} {adj : ℕ → ℕ → Prop}
  {s t : ℕ → Option Color} {taken taken' : ℕ → Prop} {done : List ℕ}

namespace Groups

variable (h : Groups ok adj bd s v taken)
include h

/-- The groups are stored in four fields, and a step that leaves these alone
leaves the groups alone. -/
theorem of_fields (hb : bd'.b = bd.b) (hg : bd'.g = bd.g) (hp : bd'.p = bd.p)
    (hgi : bd'.gi = bd.gi) : Groups ok adj bd' s v taken := by
  have hopen (q : ℕ) : bd'.openLibs v taken q = bd.openLibs v taken q := by
    unfold openLibs liberties
    rw [hb, hg]
  refine ⟨hg ▸ h.labels, hg ▸ h.on, ?_, fun q => ?_, hgi ▸ h.atari, h.few⟩
  · rw [hg, hp]
    exact h.chain
  · rw [hgi, hopen]
    exact h.libs q

/-- Only the groups that exist can lose a liberty, so labels that nobody has do
not matter. -/
theorem of_taken (htaken : ∀ u, bd.g u ≠ 0 → (taken (bd.g u) ↔ taken' (bd.g u))) :
    Groups ok adj bd s v taken' := by
  refine ⟨h.labels, h.on, h.chain, fun q => (h.libs q).congr (Set.ext fun e => ?_), h.atari, h.few⟩
  refine and_congr_right fun ⟨h0, _, u, hu, _⟩ => ?_
  rw [← hu] at h0 ⊢
  rw [htaken u h0]

/-- The stones of a label are what the rules call a group. -/
theorem group_eq (hlink : Linked adj s c = Linked near t c) (hd : s d = some c) :
    Go.group near t c d = {w | bd.g w = bd.g d} := by
  ext w
  rw [Go.group, ← hlink]
  exact h.labels.group c d w hd

/-- A group has a liberty where its list is not empty.  This is where what the
code looks at meets what the rules ask. -/
theorem hasLiberty_iff (hlink : Linked adj s c = Linked near t c) (hd : s d = some c)
    (margin : ∀ e, bd.b e = .none → onBoard e = true)
    (free : ∀ e, onBoard e = true →
      (t e = none ↔ bd.b e = .none ∧ (e = v → ¬ taken (bd.g d)))) :
    HasLiberty near t c d ↔ bd.gi.lib (bd.g d) ≠ [] := by
  unfold HasLiberty
  rw [h.group_eq hlink hd]
  constructor
  · rintro ⟨u, hu, e, ⟨-, he, hnext⟩, hfree⟩ hnil
    have hempty := (hnil ▸ h.libs (bd.g d)).eq_empty
    obtain ⟨hnone, hev⟩ := (free e he).mp hfree
    have hmem : e ∈ bd.openLibs v taken (bd.g d) :=
      ⟨⟨h.labels.ne_null hd, hnone, u, hu, hnext⟩, hev⟩
    rw [hempty] at hmem
    exact hmem
  · intro hne
    obtain ⟨e, he⟩ := List.exists_mem_of_ne_nil _ hne
    obtain ⟨⟨h0, hnone, u, hu, hnext⟩, hev⟩ := (h.libs (bd.g d)).sub e he
    have hon := margin e hnone
    exact ⟨u, hu, e, ⟨h.on u (hu ▸ h0), hon, hnext⟩, (free e hon).mpr ⟨hnone, hev⟩⟩

end Groups

theorem Ledger.stoneAt_eq_none_iff {counted : ℕ → Stone → ℕ} {held : Set ℕ}
    (h : Ledger bd counted held) (hd : Stones.onBoard d = true) :
    bd.stoneAt d = none ↔ bd.b d = .none := by
  have hoff : bd.b d ≠ .offboard := fun hoff =>
    absurd (hd.symm.trans ((h.margin d).mp hoff)) (by decide)
  unfold stoneAt
  cases hb : bd.b d with
  | offboard => exact absurd hb hoff
  | _ => simp

/-- A stone that is played is not among those captured, so it does not matter
which comes first. -/
theorem place_remove {set : Set ℕ} (hv : v ∉ set) (s : ℕ → Option Color) (k : Color) :
    Go.place (Go.remove set s) k v = Go.remove set (Go.place s k v) := by
  funext w
  by_cases hwv : w = v
  · subst hwv
    rw [place_self, remove_of_not_mem hv, place_self]
  · rw [place_of_ne hwv]
    by_cases hw : w ∈ set
    · rw [remove_of_mem hw, remove_of_mem hw]
    · rw [remove_of_not_mem hw, remove_of_not_mem hw, place_of_ne hwv]

/-- The stones after a capture are those of the rules, without the group. -/
theorem Groups.stoneAt_capture (h : Groups ok adj bd s v taken) (hu : bd.g u ≠ 0) :
    (bd.boardGroupCapture (bd.g u)).2.stoneAt = Go.remove {w | bd.g w = bd.g u} bd.stoneAt := by
  have hb := congrFun (h.boardGroupCapture_b hu)
  funext w
  by_cases hw : bd.g w = bd.g u
  · rw [remove_of_mem (show w ∈ {w | bd.g w = bd.g u} from hw)]
    exact stoneAt_of_free ((hb w).trans (if_pos hw))
  · rw [remove_of_not_mem (show w ∉ {w | bd.g w = bd.g u} from hw)]
    unfold stoneAt
    rw [hb w, if_neg hw]

/-! ## One neighbor

The cases of the body of the loop.  In each of them the neighbor has counted the
stone and its group has lost the liberty before the case is decided. -/

/-- The stones that are in the groups: the stone on `v` is, once it has a
label. -/
noncomputable def joined (bd : Board) (v : ℕ) (k : Color) : ℕ → Option Color :=
  if bd.g v = 0 then bd.stoneAt else Go.place bd.stoneAt k v

/-- What holds while a stone is played on `v`, when the neighbors of `done` are
dealt with: the point is empty, the groups and the counts are right up to these
neighbors, and the stone has a label exactly when one of them has its color. -/
structure Playing (ok : Prop) (bd : Board) (v : ℕ) (k : Color) (done : List ℕ) : Prop where
  free : bd.b v = .none
  apart : v ∉ done
  groups : Groups ok (edges v done) bd (bd.joined v k) v fun q => ∃ a ∈ done, bd.g a = q
  alone : bd.g v = 0 → ∀ a ∈ done, bd.stoneAt a ≠ some k
  behind : bd.g v ≠ 0 → ∃ a ∈ done, bd.g a = bd.g v
  ledger : Ledger bd (fun c x => if c ∈ done ∧ x = k.stone then 1 else 0) {v}
  few : ok → (occupied (Go.place bd.stoneAt k v)).ncard < boardMaxGroups

theorem joined_of_ne (hu : u ≠ v) : bd.joined v k u = bd.stoneAt u := by
  unfold joined
  split
  · rfl
  · exact place_of_ne hu

theorem joined_of_label (h : bd.g v ≠ 0) : bd.joined v k = Go.place bd.stoneAt k v := if_neg h

theorem joined_of_unlabelled (h : bd.g v = 0) : bd.joined v k = bd.stoneAt := if_pos h

theorem exists_mem_concat {q : ℕ} {g : ℕ → ℕ} :
    (∃ a ∈ done ++ [d], g a = q) ↔ (∃ a ∈ done, g a = q) ∨ q = g d := by
  simp only [List.mem_append, List.mem_singleton, or_and_right, exists_or, exists_eq_left]
  exact or_congr_right eq_comm

/-- A step that captures as the rules do: the invariant holds for one neighbor
more, and the stones are those of the rules after a capture at it. -/
structure Captures (ok : Prop) (bd bd' : Board) (v : ℕ) (k : Color) (done : List ℕ) (d : ℕ) :
    Prop where
  playing : Playing ok bd' v k (done ++ [d])
  stones : Go.place bd'.stoneAt k v = Go.captureAt near k.other (Go.place bd.stoneAt k v) d

namespace Playing

variable (h : Playing ok bd v k done)
include h

theorem onBoard : onBoard v = true := h.ledger.onBoard (h.free ▸ by decide)

/-- The point of the stone is not among its neighbors. -/
theorem apart_concat (hdv : d ≠ v) : v ∉ done ++ [d] := by
  rw [List.mem_append, List.mem_singleton, not_or]
  exact ⟨h.apart, hdv.symm⟩

theorem stoneAt_self : bd.stoneAt v = none := stoneAt_of_free h.free

theorem joined_ne_other : bd.joined v k v ≠ some k.other := by
  unfold joined
  split
  · rw [h.stoneAt_self]
    exact (Option.some_ne_none _).symm
  · rw [place_self]
    exact fun hk => k.other_ne (Option.some.inj hk).symm

/-- A point with a label has a stone, of some color. -/
theorem exists_color (hd : d ≠ v) (hg : bd.g d ≠ 0) : ∃ c, bd.stoneAt d = some c := by
  have hne := (h.groups.labels.stone d).not.mp hg
  rw [joined_of_ne hd] at hne
  exact Option.ne_none_iff_exists'.mp hne

theorem g_ne_zero (hd : bd.stoneAt d = some c) : bd.g d ≠ 0 := by
  have hdv : d ≠ v := ne_of_free h.stoneAt_self hd
  exact h.groups.labels.ne_null ((joined_of_ne hdv).trans hd)

theorem finite_place : (occupied (Go.place bd.stoneAt k v)).Finite := by
  refine (h.groups.finite_occupied.insert v).subset fun w hw => ?_
  by_cases hwv : w = v
  · exact .inl hwv
  · refine .inr ?_
    show bd.joined v k w ≠ none
    rw [joined_of_ne hwv, ← place_of_ne (k := k) (s := bd.stoneAt) hwv]
    exact hw

/-- The neighbor counts the stone, and so the counts are ahead at one point
more. -/
theorem count (hnew : d ∉ done) : Ledger (bd.incNeighborCount d k)
    (fun c x => if c ∈ done ++ [d] ∧ x = k.stone then 1 else 0) {v} := by
  have hcount := h.ledger.incNeighborCount d k
  have hsame : (fun c x => (if c ∈ done ∧ x = k.stone then 1 else 0) +
      if c = d ∧ x = k.stone then 1 else 0) =
        fun c x => if c ∈ done ++ [d] ∧ x = k.stone then 1 else 0 := by
    funext c x
    by_cases hcd : c = d
    · subst hcd
      simp [hnew]
    · simp [hcd]
  rwa [hsame] at hcount

/-- The group of the neighbor loses the liberty, and is then among those that
have. -/
theorem groups_rmlib (hg : bd.g d ≠ 0) :
    Groups ok (edges v done) ((bd.incNeighborCount d k).boardGroupRmlib (bd.g d) v)
      (bd.joined v k) v fun q => ∃ a ∈ done ++ [d], bd.g a = q := by
  have counted : Groups ok (edges v done) (bd.incNeighborCount d k) (bd.joined v k) v
      fun q => ∃ a ∈ done, bd.g a = q := h.groups.of_fields rfl rfl rfl rfl
  exact (counted.rmlib hg).of_taken fun u _ => exists_mem_concat.symm

omit h in
/-- A step that leaves the stones as they are, at a neighbor that is not
captured, is one that captures as the rules do. -/
theorem captures_of_same (hstones : bd'.stoneAt = bd.stoneAt)
    (playing : Playing ok bd' v k (done ++ [d]))
    (alive : Go.place bd.stoneAt k v d = some k.other →
      HasLiberty near (Go.place bd.stoneAt k v) k.other d) : Captures ok bd bd' v k done d := by
  refine ⟨playing, ?_⟩
  rw [hstones, captureAt_of_not_dead fun hdead => hdead.2 (alive hdead.1)]

/-- What is left to show when only a liberty was lost: that the groups are right
along one more edge. -/
theorem of_rmlib (hnew : d ∉ done) (hdv : d ≠ v) (alone : bd.g v = 0 → bd.stoneAt d ≠ some k)
    (groups : Groups ok (edges v (done ++ [d]))
      ((bd.incNeighborCount d k).boardGroupRmlib (bd.g d) v) (bd.joined v k) v
        fun q => ∃ a ∈ done ++ [d], bd.g a = q) :
    Playing ok ((bd.incNeighborCount d k).boardGroupRmlib (bd.g d) v) v k (done ++ [d]) := by
  have hcount := h.count hnew
  constructor
  case free => exact h.free
  case apart => exact h.apart_concat hdv
  case groups => exact groups
  case alone =>
    intro hv a ha
    rcases List.mem_append.mp ha with ha | ha
    · exact h.alone hv a ha
    · rw [List.mem_singleton.mp ha]
      exact alone hv
  case behind =>
    intro hv
    obtain ⟨a, ha, hga⟩ := h.behind hv
    exact ⟨a, List.mem_append_left _ ha, hga⟩
  case ledger => exact ⟨hcount.margin, hcount.counts, hcount.indexed, hcount.free, hcount.hash⟩
  case few => exact h.few

/-- **Nothing there**: the neighbor is empty, or off the board.  It counts the
stone all the same. -/
theorem step_unlabelled (hdv : d ≠ v) (hnew : d ∉ done) (hg : bd.g d = 0) :
    Captures ok bd (bd.incNeighborCount d k) v k done d := by
  have hnone : bd.stoneAt d = none := by
    rw [← joined_of_ne (k := k) hdv]
    exact (h.groups.labels.stone d).mp hg
  refine captures_of_same rfl ?_ fun hd => ?_
  · constructor
    case free => exact h.free
    case apart => exact h.apart_concat hdv
    case groups =>
      have labels := h.groups.labels.skip (v := v) (d := d) fun c _ hc =>
        absurd (hc.symm.trans ((joined_of_ne hdv).trans hnone)) (Option.some_ne_none c)
      rw [← edges_concat] at labels
      have counted : Groups ok (edges v done) (bd.incNeighborCount d k) (bd.joined v k) v
          fun q => ∃ a ∈ done, bd.g a = q := h.groups.of_fields rfl rfl rfl rfl
      refine (counted.of_labels labels).of_taken fun u hu => ?_
      exact (exists_mem_concat.trans (or_iff_left fun hd => hu (hd.trans hg))).symm
    case alone =>
      intro hv a ha
      rcases List.mem_append.mp ha with ha | ha
      · exact h.alone hv a ha
      · rw [List.mem_singleton.mp ha]
        exact fun hd => Option.some_ne_none k (hd.symm.trans hnone)
    case behind =>
      intro hv
      obtain ⟨a, ha, hga⟩ := h.behind hv
      exact ⟨a, List.mem_append_left _ ha, hga⟩
    case ledger => exact h.count hnew
    case few => exact h.few
  · rw [place_of_ne hdv, hnone] at hd
    exact absurd hd (by simp)

/-- **A stone of the color**, and no group yet. -/
theorem step_add (hnew : d ∉ done) (hd : bd.stoneAt d = some k) (hv : bd.g v = 0) :
    Captures ok bd (((bd.incNeighborCount d k).boardGroupRmlib (bd.g d) v).addToGroup (bd.g d) d v)
      v k done d := by
  have hdv : d ≠ v := ne_of_free h.stoneAt_self hd
  have hg : bd.g d ≠ 0 := h.g_ne_zero hd
  have hjoined : bd.joined v k = bd.stoneAt := joined_of_unlabelled hv
  refine captures_of_same rfl ?_ fun hother => ?_
  · constructor
    case free => exact h.free
    case apart => exact h.apart_concat hdv
    case groups =>
      have groups := h.groups_rmlib hg
      rw [hjoined] at groups
      have alone (a : ℕ) (ha : edges v done v a) : bd.stoneAt a ≠ some k := by
        rcases ha with ⟨-, hvv, -⟩ | ⟨-, ha⟩ | ⟨-, hav⟩
        · exact absurd rfl hvv
        · exact h.alone hv a ha
        · rw [hav, h.stoneAt_self]
          exact (Option.some_ne_none k).symm
      have join := groups.addToGroup edges_symm h.onBoard h.stoneAt_self alone hd h.few
      rw [← edges_concat] at join
      have hlabel : Function.update bd.g v (bd.g d) v ≠ 0 := by
        rw [Function.update_self]
        exact hg
      have hstone : ((bd.incNeighborCount d k).addToGroup (bd.g d) d v).joined v k =
          Go.place bd.stoneAt k v := joined_of_label hlabel
      refine hstone.symm ▸ join.of_taken fun u _ => ?_
      refine exists_congr fun a => and_congr_right fun ha => ?_
      have hav : a ≠ v := fun hav => h.apart_concat hdv (hav ▸ ha)
      show bd.g a = _ ↔ Function.update bd.g v (bd.g d) a = _
      rw [Function.update_of_ne hav]
    case alone =>
      intro (hv : Function.update bd.g v (bd.g d) v = 0)
      rw [Function.update_self] at hv
      exact absurd hv hg
    case behind =>
      intro _
      refine ⟨d, by simp, ?_⟩
      show Function.update bd.g v (bd.g d) d = Function.update bd.g v (bd.g d) v
      rw [Function.update_of_ne hdv, Function.update_self]
    case ledger =>
      have hcount := h.count hnew
      exact ⟨hcount.margin, hcount.counts, hcount.indexed, hcount.free, hcount.hash⟩
    case few => exact h.few
  · rw [place_of_ne hdv, hd] at hother
    exact absurd (Option.some.inj hother).symm k.other_ne

/-- **A stone of the color**, whose group is merged. -/
theorem step_merge (hnew : d ∉ done) (hd : bd.stoneAt d = some k) (hv : bd.g v ≠ 0)
    (hne : bd.g d ≠ bd.g v) :
    Captures ok bd (((bd.incNeighborCount d k).boardGroupRmlib (bd.g d) v).mergeGroups (bd.g v)
      (bd.g d)) v k done d := by
  have hdv : d ≠ v := ne_of_free h.stoneAt_self hd
  have hg : bd.g d ≠ 0 := h.g_ne_zero hd
  have hjoined : bd.joined v k v = some k := by
    rw [joined_of_label hv, place_self]
  have groups := h.groups_rmlib hg
  obtain ⟨a, ha, hav⟩ := h.behind hv
  have merge := groups.mergeGroups hjoined ((joined_of_ne hdv).trans hd) hne
    ⟨a, List.mem_append_left _ ha, hav⟩ ⟨d, by simp, rfl⟩
  rw [← edges_concat] at merge
  have hlabel := groups.mergeGroups_g hg (bd.g v)
  set bd' := ((bd.incNeighborCount d k).boardGroupRmlib (bd.g d) v).mergeGroups (bd.g v) (bd.g d)
  have hlabel (w : ℕ) : bd'.g w = if bd.g w = bd.g d then bd.g v else bd.g w :=
    congrFun hlabel w
  have hself : bd'.g v = bd.g v := (hlabel v).trans (ite_self _)
  refine captures_of_same rfl ?_ fun hother => ?_
  · constructor
    case free => exact h.free
    case apart => exact h.apart_concat hdv
    case groups =>
      have hsame : bd'.joined v k = bd.joined v k := by
        rw [joined_of_label hv, joined_of_label (hself.symm ▸ hv)]
        rfl
      rw [hsame]
      refine merge.of_taken fun u _ => ?_
      have hout : bd'.g u ≠ bd.g d := by
        rw [hlabel]
        split
        · exact hne.symm
        · assumption
      show (∃ b ∈ done ++ [d], bd.g b = bd'.g u) ↔ ∃ b ∈ done ++ [d], bd'.g b = bd'.g u
      generalize bd'.g u = q at hout
      simp only [hlabel, Groups.merged_iff]
      by_cases hqv : q = bd.g v
      · refine iff_of_true ⟨a, List.mem_append_left _ ha, hav.trans hqv.symm⟩ ?_
        exact ⟨a, List.mem_append_left _ ha, by rw [if_pos hqv]; exact .inl hav⟩
      · simp only [if_neg hqv, ne_eq, hout, not_false_eq_true, true_and]
    case alone =>
      intro hv'
      exact absurd (hself.symm.trans hv') hv
    case behind =>
      intro _
      refine ⟨a, List.mem_append_left _ ha, ?_⟩
      rw [hself, hlabel, hav, ite_self]
    case ledger =>
      have hcount := h.count hnew
      exact ⟨hcount.margin, hcount.counts, hcount.indexed, hcount.free, hcount.hash⟩
    case few => exact h.few
  · rw [place_of_ne hdv, hd] at hother
    exact absurd (Option.some.inj hother).symm k.other_ne

/-- **A stone of the color**, in the group already. -/
theorem step_same (hnew : d ∉ done) (hd : bd.stoneAt d = some k) (hsame : bd.g d = bd.g v) :
    Captures ok bd ((bd.incNeighborCount d k).boardGroupRmlib (bd.g d) v) v k done d := by
  have hdv : d ≠ v := ne_of_free h.stoneAt_self hd
  have groups := h.groups_rmlib (h.g_ne_zero hd)
  refine captures_of_same rfl (h.of_rmlib hnew hdv (fun hv => ?_) ?_) fun hother => ?_
  · exact absurd (hsame.trans hv) (h.g_ne_zero hd)
  · have labels := groups.labels.skip (v := v) (d := d) fun _ _ _ => hsame.symm
    rw [← edges_concat] at labels
    exact groups.of_labels labels
  · rw [place_of_ne hdv, hd] at hother
    exact absurd (Option.some.inj hother).symm k.other_ne

/-- The edge to a stone of the opponent connects nothing, since groups have one
color. -/
theorem groups_other (hd : bd.stoneAt d = some k.other) : Groups ok (edges v (done ++ [d]))
    ((bd.incNeighborCount d k).boardGroupRmlib (bd.g d) v) (bd.joined v k) v
      fun q => ∃ a ∈ done ++ [d], bd.g a = q := by
  have hdv : d ≠ v := ne_of_free h.stoneAt_self hd
  have groups := h.groups_rmlib (h.g_ne_zero hd)
  have labels := groups.labels.skip (v := v) (d := d) fun c hv hc => by
    rw [joined_of_ne hdv, hd] at hc
    exact absurd (hv.trans hc.symm) h.joined_ne_other
  rw [← edges_concat] at labels
  exact groups.of_labels labels

/-- The list of a group of the opponent is empty where the rules capture it. -/
theorem hasLiberty_iff (hd : bd.stoneAt d = some k.other) :
    HasLiberty near (Go.place bd.stoneAt k v) k.other d ↔
      ((bd.incNeighborCount d k).boardGroupRmlib (bd.g d) v).gi.lib (bd.g d) ≠ [] := by
  have hdv : d ≠ v := ne_of_free h.stoneAt_self hd
  have hlink : Linked (edges v (done ++ [d])) (bd.joined v k) k.other =
      Linked near (Go.place bd.stoneAt k v) k.other := by
    refine linked_edges h.joined_ne_other ?_ fun u hu => ?_
    · rw [place_self]
      exact fun hk => k.other_ne (Option.some.inj hk).symm
    · rw [joined_of_ne hu, place_of_ne hu]
  refine (h.groups_other hd).hasLiberty_iff hlink ((joined_of_ne hdv).trans hd) (fun e he => ?_)
    fun e he => ?_
  · exact h.ledger.onBoard (he ▸ by decide : bd.b e ≠ .offboard)
  · by_cases hev : e = v
    · subst hev
      rw [place_self]
      exact iff_of_false (Option.some_ne_none k) fun hnot => hnot.2 rfl ⟨d, by simp, rfl⟩
    · rw [place_of_ne hev, h.ledger.stoneAt_eq_none_iff he]
      exact (and_iff_left fun heq => absurd heq hev).symm

/-- **A stone of the opponent** whose group has liberties left.  It only loses
this one. -/
theorem step_alive (hnew : d ∉ done) (hd : bd.stoneAt d = some k.other)
    (hlib : ((bd.incNeighborCount d k).boardGroupRmlib (bd.g d) v).gi.lib (bd.g d) ≠ []) :
    Captures ok bd ((bd.incNeighborCount d k).boardGroupRmlib (bd.g d) v) v k done d := by
  have hdv : d ≠ v := ne_of_free h.stoneAt_self hd
  refine captures_of_same rfl (h.of_rmlib hnew hdv (fun _ hk => ?_) (h.groups_other hd))
    fun _ => (h.hasLiberty_iff hd).mpr hlib
  exact k.other_ne (Option.some.inj (hd.symm.trans hk))

/-- **A stone of the opponent** whose group is captured. -/
theorem step_capture (hnew : d ∉ done) (hd : bd.stoneAt d = some k.other)
    (hlib : ((bd.incNeighborCount d k).boardGroupRmlib (bd.g d) v).gi.lib (bd.g d) = []) :
    Captures ok bd
      (((bd.incNeighborCount d k).boardGroupRmlib (bd.g d) v).boardGroupCapture (bd.g d)).2
        v k done d := by
  have hdv : d ≠ v := ne_of_free h.stoneAt_self hd
  have hg : bd.g d ≠ 0 := h.g_ne_zero hd
  have groups := h.groups_other hd
  have hcolor (w : ℕ) (hw : bd.g w = bd.g d) : bd.joined v k w = some k.other :=
    groups.labels.color hw ((joined_of_ne hdv).trans hd)
  have hvd : bd.g v ≠ bd.g d := fun hvd => h.joined_ne_other (hcolor v hvd)
  have hstone (w : ℕ) (hw : bd.g w = bd.g d) : bd.stoneAt w = some k.other := by
    have hwv : w ≠ v := fun hwv => hvd (hwv ▸ hw)
    exact (joined_of_ne hwv).symm.trans (hcolor w hw)
  obtain ⟨-, nodup, mem⟩ := groups.foreachInGroup hg
  have hgcap := groups.boardGroupCapture_g hg
  have capture := groups.capture hg hlib (.inl hvd)
  set bd₂ := (bd.incNeighborCount d k).boardGroupRmlib (bd.g d) v
  set bd₃ := (bd₂.boardGroupCapture (bd.g d)).2
  have hlabel (w : ℕ) : bd₃.g w = if bd.g w = bd.g d then 0 else bd.g w := congrFun hgcap w
  have hself : bd₃.g v = bd.g v := (hlabel v).trans (if_neg hvd)
  have hstones : bd₃.stoneAt = Go.remove {w | bd.g w = bd.g d} bd.stoneAt :=
    groups.stoneAt_capture hg
  have hplace : Go.place bd₃.stoneAt k v =
      Go.remove {w | bd.g w = bd.g d} (Go.place bd.stoneAt k v) :=
    hstones ▸ place_remove (show v ∉ {w | bd.g w = bd.g d} from hvd) bd.stoneAt k
  have hjoined : bd₃.joined v k = Go.remove {w | bd.g w = bd.g d} (bd.joined v k) := by
    by_cases hv : bd.g v = 0
    · rw [joined_of_unlabelled hv, joined_of_unlabelled (hself.trans hv), hstones]
    · rw [joined_of_label hv, joined_of_label (hself.symm ▸ hv), hplace]
  constructor
  case stones =>
    have hgroup := groups.group_eq (c := k.other) (t := Go.place bd.stoneAt k v) (by
      refine linked_edges h.joined_ne_other ?_ fun u hu => ?_
      · rw [place_self]
        exact fun hk => k.other_ne (Option.some.inj hk).symm
      · rw [joined_of_ne hu, place_of_ne hu]) ((joined_of_ne hdv).trans hd)
    rw [captureAt_of_dead ⟨(place_of_ne hdv).trans hd, fun hl => (h.hasLiberty_iff hd).mp hl hlib⟩,
      hgroup, hplace]
    rfl
  case playing =>
    constructor
    case free =>
      refine (congrFun (groups.boardGroupCapture_b hg) v).trans ?_
      exact (if_neg hvd).trans h.free
    case apart => exact h.apart_concat hdv
    case groups =>
      rw [hjoined]
      refine capture.of_taken fun u (hu : bd₃.g u ≠ 0) => exists_congr fun a =>
        and_congr_right fun _ => ?_
      show bd.g a = bd₃.g u ↔ bd₃.g a = bd₃.g u
      rw [hlabel u] at hu ⊢
      split at hu
      case isTrue => exact absurd rfl hu
      case isFalse hne =>
        rw [if_neg hne, hlabel]
        split
        case isTrue ha =>
          exact iff_of_false (fun hau => hne (hau.symm.trans ha)) fun h0 => hu h0.symm
        case isFalse => exact Iff.rfl
    case alone =>
      intro hv a ha
      rw [hstones]
      intro hk
      obtain ⟨hout, hk⟩ := remove_eq_some_iff.mp hk
      rcases List.mem_append.mp ha with ha | ha
      · exact h.alone (hself.symm.trans hv) a ha hk
      · exact hout (congrArg bd.g (List.mem_singleton.mp ha))
    case behind =>
      intro hv
      obtain ⟨a, ha, hga⟩ := h.behind (hself ▸ hv)
      refine ⟨a, List.mem_append_left _ ha, ?_⟩
      rw [hself, hlabel, if_neg (hga.symm ▸ hvd), hga]
    case ledger =>
      have hcount := h.count hnew
      have hcount : Ledger bd₂ (fun c x => if c ∈ done ++ [d] ∧ x = k.stone then 1 else 0) {v} :=
        ⟨hcount.margin, hcount.counts, hcount.indexed, hcount.free, hcount.hash⟩
      have removed := hcount.removeStones nodup
        (fun c hc => stoneAt_eq_some_iff.mp (hstone c ((mem c).mp hc)))
        (fun c hc => fun hcv => hvd (hcv ▸ (mem c).mp hc)) (bd.g d)
      exact ⟨removed.margin, removed.counts, removed.indexed, removed.free, removed.hash⟩
    case few =>
      intro hok
      rw [hplace]
      refine (Set.ncard_le_ncard (fun w hw => ?_) (h.finite_place)).trans_lt (h.few hok)
      intro hnone
      refine hw ?_
      by_cases hin : w ∈ {w | bd.g w = bd.g d}
      · exact remove_of_mem hin
      · rw [remove_of_not_mem hin, hnone]

/-- **`play_one_neighbor`** captures as the rules do, whatever stands at the
neighbor.  The label that it returns is the one the stone has then. -/
theorem step (hdv : d ≠ v) (hnew : d ∉ done) : ∃ bd', playOneNeighbor v k (bd, bd.g v) d =
    (bd', bd'.g v) ∧ Captures ok bd bd' v k done d := by
  by_cases hg : bd.g d = 0
  · exact ⟨_, if_pos hg, h.step_unlabelled hdv hnew hg⟩
  obtain ⟨c, hc⟩ := h.exists_color hdv hg
  have hb := stoneAt_eq_some_iff.mp hc
  have hplay : playOneNeighbor v k (bd, bd.g v) d = _ := if_neg hg
  rw [hplay]
  dsimp only
  by_cases hck : c = k
  · subst hck
    by_cases hsame : bd.g d = bd.g v
    · have hother : bd.b d ≠ c.other.stone := fun hother =>
        c.other_ne (Color.stone_injective (hother.symm.trans hb))
      rw [if_neg fun hcond => hcond.2 hsame, if_neg fun hcond => hother hcond.1]
      exact ⟨_, rfl, h.step_same hnew hc hsame⟩
    · rw [if_pos ⟨hb, hsame⟩]
      by_cases hv : bd.g v = 0
      · have hlabel : Function.update bd.g v (bd.g d) v = bd.g d := Function.update_self _ _ _
        rw [if_pos hv]
        exact ⟨_, Prod.ext rfl hlabel.symm, h.step_add hnew hc hv⟩
      · rw [if_neg hv]
        refine ⟨_, Prod.ext rfl ?_, h.step_merge hnew hc hv hsame⟩
        have hlabel := congrFun ((h.groups_rmlib hg).mergeGroups_g hg (bd.g v)) v
        exact (hlabel.trans (ite_self _)).symm
  · obtain rfl : c = k.other := by
      cases c <;> cases k <;> first | rfl | exact absurd rfl hck
    rw [if_neg fun hcond => hck (Color.stone_injective (hb.symm.trans hcond.1))]
    by_cases hlib : ((bd.incNeighborCount d k).boardGroupRmlib (bd.g d) v).gi.lib (bd.g d) = []
    · rw [if_pos ⟨hb, congrArg List.length hlib⟩]
      refine ⟨_, Prod.ext rfl ?_, h.step_capture hnew hc hlib⟩
      have hlabel := congrFun ((h.groups_other hc).boardGroupCapture_g hg) v
      have hvd : bd.g v ≠ bd.g d := fun hvd => h.joined_ne_other
        ((h.groups_other hc).labels.color hvd ((joined_of_ne hdv).trans hc))
      exact (hlabel.trans (if_neg hvd)).symm
    · rw [if_neg fun hcond => hlib (List.eq_nil_of_length_eq_zero hcond.2)]
      exact ⟨_, rfl, h.step_alive hnew hc hlib⟩

/-- **The loop over the neighbors**, by induction along them: the stones
afterwards are those of the rules after captures at each. -/
theorem run {ds : List ℕ} (hds : ∀ d ∈ ds, d ≠ v) (nodup : (done ++ ds).Nodup) :
    ∃ bd', ds.foldl (playOneNeighbor v k) (bd, bd.g v) = (bd', bd'.g v) ∧
      Playing ok bd' v k (done ++ ds) ∧
      Go.place bd'.stoneAt k v =
        ds.foldl (Go.captureAt near k.other) (Go.place bd.stoneAt k v) := by
  induction ds generalizing bd done with
  | nil => exact ⟨bd, rfl, (List.append_nil done).symm ▸ h, rfl⟩
  | cons d ds ih =>
      obtain ⟨hdv, hds⟩ := List.forall_mem_cons.mp hds
      have hnew : d ∉ done := fun hd =>
        (List.nodup_append.mp nodup).2.2 d hd d List.mem_cons_self rfl
      obtain ⟨bd₁, hstep, captures⟩ := h.step hdv hnew
      rw [List.append_cons] at nodup ⊢
      obtain ⟨bd', hrun, playing, hstones⟩ := ih captures.playing hds nodup
      refine ⟨bd', ?_, playing, ?_⟩
      · rw [List.foldl_cons, hstep, hrun]
      · rw [hstones, captures.stones]
        rfl

end Playing

end Board

end EstarGo
