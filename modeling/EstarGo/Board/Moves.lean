import EstarGo.Board.Play

/-!
# The moves of the board

Between two moves the groups and the counts describe the stones: `Sound`.  A
move on a point with a liberty places the stone, captures around it, and then
captures its own group where it has no liberty; a move in an eye of the opponent
captures around it.  Both leave the stones and the ko of the rules.

## Main definitions

* `Sound` — the board between two moves.
* `Board.settled` — the board with the stone of a move on its point.
* `Counts` — what a move in an eye has counted of its captures.

## Main results

* `Sound.boardPlayOutside`, `Sound.boardPlayF_outside`: a move outside an eye.
* `Playing.run_eye`: the captures of a move in an eye, and their number.

## Design notes

**The parameter `ok`** is a promise about the assertions.  A move keeps `Sound`
whatever happens to them; that they hold after it has to be paid for with the
bound on the number of stones, and only where `ok` is asked for.

**Counting captures.**  `board_play_in_eye` makes a ko where exactly one stone
was captured, and it remembers the last neighbor that was, not the stone.  Where
a single stone is captured the two are the same, which is what `Counts` is there
to show.
-/

namespace EstarGo

open Verif Verif.Go Stones

namespace Board

variable {bd bd' : Board} {d u v : ℕ} {k c : Color} {ok : Prop} {done : List ℕ}

/-- The groups and the counts describe the stones.  No stone is being played: no
group has lost a liberty, and no count is ahead. -/
structure Sound (ok : Prop) (bd : Board) : Prop where
  groups : Groups ok near bd bd.stoneAt 0 fun _ => False
  ledger : Ledger bd (fun _ _ => 0) ∅

namespace Sound

/-- The record of the game and the ring of hashes do not matter to it. -/
theorem of_fields (h : Sound ok bd) (hb : bd'.b = bd.b) (hg : bd'.g = bd.g) (hp : bd'.p = bd.p)
    (hgi : bd'.gi = bd.gi) (hn : bd'.n = bd.n) (hfree : bd'.free = bd.free)
    (hhash : bd'.hashes.hash = bd.hashes.hash) : Sound ok bd' := by
  have hstones : bd'.stoneAt = bd.stoneAt := by
    unfold stoneAt
    rw [hb]
  refine ⟨hstones.symm ▸ h.groups.of_fields hb hg hp hgi, ?_⟩
  obtain ⟨margin, counts, indexed, free, hash⟩ := h.ledger
  exact ⟨hb ▸ margin, hb ▸ hn ▸ counts, hfree ▸ indexed, hb ▸ hfree ▸ free, hb ▸ hhash ▸ hash⟩

/-- A promise about the assertions may be weakened, since what is promised less
is kept more easily. -/
theorem mono {ok' : Prop} (h : Sound ok bd) (imp : ok' → ok) : Sound ok' bd where
  groups := { h.groups with
    few := fun hok => h.groups.few (imp hok)
    atari := { h.groups.atari with asserted := fun hok => h.groups.atari.asserted (imp hok) } }
  ledger := h.ledger

variable (h : Sound ok bd)
include h

/-- An empty point is on the board. -/
theorem onBoard_of_free (hv : bd.b v = .none) : onBoard v = true :=
  h.ledger.onBoard (hv ▸ by decide)

theorem on_of_stone (hu : bd.stoneAt u ≠ none) : onBoard u = true :=
  h.groups.on u fun hg => hu ((h.groups.labels.stone u).mp hg)

theorem finite_stones : (occupied bd.stoneAt).Finite := h.groups.finite_occupied

/-- A group has a liberty where its list is not empty. -/
theorem hasLiberty_iff (hd : bd.stoneAt d = some c) :
    HasLiberty near bd.stoneAt c d ↔ bd.gi.lib (bd.g d) ≠ [] := by
  refine h.groups.hasLiberty_iff rfl hd (fun e he => h.onBoard_of_free he) fun e he => ?_
  rw [h.ledger.stoneAt_eq_none_iff he]
  exact (and_iff_left fun _ => id).symm

/-- **A group without liberties is captured**, as the rules do at a point of
it. -/
theorem capture (hd : bd.stoneAt d = some c) (hlib : bd.gi.lib (bd.g d) = []) :
    Sound ok (bd.boardGroupCapture (bd.g d)).2 ∧
      (bd.boardGroupCapture (bd.g d)).2.stoneAt = Go.captureAt near c bd.stoneAt d := by
  have hg : bd.g d ≠ 0 := h.groups.labels.ne_null hd
  obtain ⟨-, nodup, mem⟩ := h.groups.foreachInGroup hg
  have hstones := h.groups.stoneAt_capture hg
  have hdead : bd.stoneAt d = some c ∧ ¬ HasLiberty near bd.stoneAt c d :=
    ⟨hd, fun hl => (h.hasLiberty_iff hd).mp hl hlib⟩
  have hgroup := h.groups.group_eq (c := c) rfl hd
  have removed := h.ledger.removeStones nodup
    (fun w hw => stoneAt_eq_some_iff.mp (h.groups.labels.color ((mem w).mp hw) hd))
    (fun w _ => Set.notMem_empty w) (bd.g d)
  refine ⟨⟨?_, removed.margin, removed.counts, removed.indexed, removed.free, removed.hash⟩, ?_⟩
  · rw [hstones]
    exact h.groups.capture hg hlib (.inr fun _ => id)
  · rw [hstones, captureAt_of_dead hdead, hgroup]

/-! ## The start of a move

Both kinds of moves begin by taking the point off the list of free ones. -/

/-- A move adds at most one stone. -/
theorem ncard_place (k : Color) (v : ℕ) :
    (occupied (Go.place bd.stoneAt k v)).ncard ≤ (occupied bd.stoneAt).ncard + 1 := by
  have sub : occupied (Go.place bd.stoneAt k v) ⊆ insert v (occupied bd.stoneAt) := by
    intro w hw
    by_cases hwv : w = v
    · exact .inl hwv
    · refine .inr ?_
      show bd.stoneAt w ≠ none
      rw [← place_of_ne (k := k) (s := bd.stoneAt) hwv]
      exact hw
  exact (Set.ncard_le_ncard sub (h.finite_stones.insert v)).trans (Set.ncard_insert_le _ _)

/-- A stone is to be played on a free point.  Nothing has been dealt with, and
the point has left the list of free ones. -/
theorem start (hv : bd.b v = .none) (few : ok → (occupied bd.stoneAt).ncard + 1 < boardMaxGroups)
    (k : Color) : Playing ok (bd.rmf (bd.free.fmap v)) v k [] := by
  have free : bd.stoneAt v = none := stoneAt_of_free hv
  have hgv : bd.g v = 0 := (h.groups.labels.stone v).mpr free
  have hjoined : (bd.rmf (bd.free.fmap v)).joined v k = bd.stoneAt := joined_of_unlabelled hgv
  constructor
  case free => exact hv
  case apart => exact List.not_mem_nil
  case groups =>
    rw [hjoined]
    obtain ⟨labels, on, chain, libs, atari, fewer⟩ := h.groups
    have none_ne {c : Color} : bd.stoneAt v ≠ some c := fun hc =>
      Option.some_ne_none c (hc.symm.trans free)
    refine ⟨labels.congr fun c => linked_edges none_ne none_ne fun _ _ => rfl, on, chain,
      fun q => (libs q).congr (Set.ext fun e => ?_), atari, fewer⟩
    refine and_congr_right fun _ => iff_of_true (fun _ => id) fun _ => ?_
    rintro ⟨a, ha, -⟩
    exact List.not_mem_nil ha
  case alone => exact fun _ a ha => absurd ha List.not_mem_nil
  case behind => exact fun hne => absurd hgv hne
  case ledger => simpa using h.ledger.rmf hv
  case few => exact fun hok => (h.ncard_place k v).trans_lt (few hok)

end Sound

/-! ## The end of a move

After the loop over the neighbors the stone is put down.  From `Playing`, with
all neighbors dealt with, comes `Sound`. -/

/-- Putting the hash in the ring leaves it as it is. -/
theorem hashCommit_hash (bd : Board) : bd.hashCommit.hashes.hash = bd.hashes.hash := by
  unfold hashCommit
  dsimp only
  split <;> rfl

theorem removeStones_ko (r : ℕ) (l : List ℕ) (bd : Board) :
    (bd.removeStones r l).record.ko = bd.record.ko := by
  induction l generalizing bd with
  | nil => rfl
  | cons c l ih => rw [removeStones_cons, ih]; rfl

/-- A capture leaves the ko as it is; the moves set it afterwards. -/
theorem boardGroupCapture_ko (bd : Board) (r : ℕ) :
    (bd.boardGroupCapture r).2.record.ko = bd.record.ko := removeStones_ko r _ bd

/-- The board with the stone of the move, and a group of its own where it has
none. -/
def settled (bd : Board) (v : ℕ) (k : Color) : Board :=
  let placed := { bd with b := Function.update bd.b v k.stone }
  if bd.g v = 0 then placed.newGroup v else placed

theorem settled_b : (bd.settled v k).b = Function.update bd.b v k.stone := by
  unfold settled
  dsimp only
  split <;> rfl

theorem settled_n : (bd.settled v k).n = bd.n := by
  unfold settled
  dsimp only
  split <;> rfl

theorem settled_free : (bd.settled v k).free = bd.free := by
  unfold settled
  dsimp only
  split <;> rfl

theorem settled_hash : (bd.settled v k).hashes = bd.hashes := by
  unfold settled
  dsimp only
  split <;> rfl

/-- So its stones are those before it, with the stone placed. -/
theorem settled_stoneAt : (bd.settled v k).stoneAt = Go.place bd.stoneAt k v := by
  funext w
  by_cases hw : w = v
  · subst hw
    rw [place_self, stoneAt_eq_some_iff, settled_b, Function.update_self]
  · rw [place_of_ne hw]
    unfold stoneAt
    rw [settled_b, Function.update_of_ne hw]

namespace Playing

variable (h : Playing ok bd v k (foreachNeighbor v))
include h

/-- Every group next to the stone has lost the liberty: the groups that have it
as a liberty have a stone at one of its neighbors, and the loop has been to all
of them. -/
theorem all_taken (q : ℕ) (hq : v ∈ bd.liberties q) : ∃ a ∈ foreachNeighbor v, bd.g a = q := by
  obtain ⟨h0, -, u, hu, hv⟩ := hq
  exact ⟨u, foreachNeighbor_symm (h.groups.on u (hu ▸ h0)) hv, hu⟩

/-- The groups of the board with the stone.  All edges are there and no liberty
is owed, so they are the groups of the board. -/
theorem settled_groups : Groups ok near (bd.settled v k) (Go.place bd.stoneAt k v) 0
    fun _ => False := by
  have hv := h.onBoard
  have put := h.groups.putStone h.all_taken k 0
  have along : Groups ok (edges v (foreachNeighbor v)) (bd.settled v k)
      (Go.place bd.stoneAt k v) 0 fun _ => False := by
    unfold settled
    dsimp only
    split
    case isTrue h0 =>
      rw [joined_of_unlabelled h0] at put
      refine put.newGroup edges_symm (fun _ => id) hv h.stoneAt_self (fun a ha => ?_) h.few
      rcases ha with ⟨-, hvv, -⟩ | ⟨-, ha⟩ | ⟨-, hav⟩
      · exact absurd rfl hvv
      · exact h.alone h0 a ha
      · rw [hav, h.stoneAt_self]
        exact (Option.some_ne_none k).symm
    case isFalse h0 =>
      rw [joined_of_label h0] at put
      exact put
  have on (u : ℕ) (hu : Go.place bd.stoneAt k v u ≠ none) : Stones.onBoard u = true :=
    along.on u fun hg => hu ((along.labels.stone u).mp hg)
  exact along.of_labels (along.labels.congr fun c => (linked_edges_all hv on c).symm)

/-- **The stone is on the board**, and its groups and counts describe it.  Only
what this needs of the board is asked for, since both ways to play a stone come
here. -/
theorem settled_sound (hb : bd'.b = (bd.settled v k).b) (hg : bd'.g = (bd.settled v k).g)
    (hp : bd'.p = (bd.settled v k).p) (hgi : bd'.gi = (bd.settled v k).gi)
    (hn : bd'.n = bd.n) (hfree : bd'.free = bd.free)
    (hhash : bd'.hashes.hash = bd.hashes.hash ^^^ hashAt v k) :
    Sound ok bd' ∧ bd'.stoneAt = Go.place bd.stoneAt k v := by
  have hstones : bd'.stoneAt = Go.place bd.stoneAt k v := by
    rw [← settled_stoneAt]
    unfold stoneAt
    rw [hb]
  refine ⟨⟨?_, h.ledger.placeStone h.free (hb.trans settled_b) hn hfree hhash⟩, hstones⟩
  rw [hstones]
  exact h.settled_groups.of_fields hb hg hp hgi

end Playing

/-- The captures along the neighbors are those of the rules, the margin among
the neighbors included. -/
theorem foldl_captureAt_neighbors (s : ℕ → Option Color) (k : Color) (hv : onBoard v = true)
    (on : ∀ u, s u ≠ none → onBoard u = true) :
    (foreachNeighbor v).foldl (Go.captureAt near k.other) (Go.place s k v) =
      afterCapture near Color.other s k v := by
  rw [Go.foldl_captureAt near_symm]
  unfold afterCapture
  congr 1
  ext u
  constructor
  · rintro ⟨d, hd, hcolor, mem, hlib⟩
    have hdv : d ≠ v := by
      rintro rfl
      exact self_not_mem_foreachNeighbor hv hd
    have hon : onBoard d = true := on d fun hnone => by
      rw [place_of_ne hdv, hnone] at hcolor
      exact Option.some_ne_none _ hcolor.symm
    exact ⟨d, ⟨hv, hon, hd⟩, hcolor, mem, hlib⟩
  · rintro ⟨d, hadj, hcolor, mem, hlib⟩
    exact ⟨d, hadj.2.2, hcolor, mem, hlib⟩

theorem ne_of_mem_foreachNeighbor (hv : onBoard v = true) (hd : d ∈ foreachNeighbor v) :
    d ≠ v := by
  rintro rfl
  exact self_not_mem_foreachNeighbor hv hd

namespace Sound

variable (h : Sound ok bd)
include h

/-- **`board_play_outside`** places the stone, and captures the groups around
it.  The group it returns is that of the stone, and there is no ko. -/
theorem boardPlayOutside (hv : bd.b v = .none)
    (few : ok → (occupied bd.stoneAt).ncard + 1 < boardMaxGroups) (k : Color) :
    Sound ok (bd.boardPlayOutside v k (bd.free.fmap v)).1 ∧
      (bd.boardPlayOutside v k (bd.free.fmap v)).2 =
        (bd.boardPlayOutside v k (bd.free.fmap v)).1.g v ∧
      (bd.boardPlayOutside v k (bd.free.fmap v)).1.stoneAt =
        afterCapture near Color.other bd.stoneAt k v ∧
      (bd.boardPlayOutside v k (bd.free.fmap v)).1.record.ko = Move.none := by
  have hboard := h.onBoard_of_free hv
  have hgv : (bd.rmf (bd.free.fmap v)).g v = 0 :=
    (h.groups.labels.stone v).mpr (stoneAt_of_free hv)
  obtain ⟨bd₁, hrun, playing, hstones⟩ := (h.start hv few k).run
    (fun d => ne_of_mem_foreachNeighbor hboard) (nodup_foreachNeighbor hboard)
  rw [hgv] at hrun
  have hplay : bd.boardPlayOutside v k (bd.free.fmap v) =
      ({ (((bd₁.settled v k).commitMove ⟨v, k.stone⟩).hashUpdate v k) with record.ko := Move.none },
        (bd₁.settled v k).g v) := by
    unfold Board.boardPlayOutside settled
    rw [hrun]
    dsimp only
    split
    case isTrue =>
      have hlabel : Function.update bd₁.g v v v = v := Function.update_self _ _ _
      exact Prod.ext rfl hlabel.symm
    case isFalse => rfl
  have hdone : Sound ok (bd.boardPlayOutside v k (bd.free.fmap v)).1 ∧
      (bd.boardPlayOutside v k (bd.free.fmap v)).1.stoneAt = Go.place bd₁.stoneAt k v := by
    rw [hplay]
    exact playing.settled_sound rfl rfl rfl rfl settled_n settled_free
      (congrArg (fun x : Hashes => x.hash ^^^ hashAt v k) settled_hash)
  refine ⟨hdone.1, ?_, ?_, ?_⟩
  · rw [hplay]
    rfl
  · rw [hdone.2, hstones]
    exact foldl_captureAt_neighbors bd.stoneAt k hboard fun u => h.on_of_stone
  · rw [hplay]

/-- **`board_play_f`** outside an eye: the own group is captured where it has no
liberty, so the stones are those of the rules. -/
theorem boardPlayF_outside (hv : bd.b v = .none)
    (few : ok → (occupied bd.stoneAt).ncard + 1 < boardMaxGroups)
    (heye : bd.boardIsEyelike v k.other = false) :
    (bd.boardPlayF v k (bd.free.fmap v)).1 = 0 ∧
      Sound ok (bd.boardPlayF v k (bd.free.fmap v)).2 ∧
      (bd.boardPlayF v k (bd.free.fmap v)).2.stoneAt =
        Go.remove (suicide near Color.other bd.stoneAt k v)
          (afterCapture near Color.other bd.stoneAt k v) ∧
      (bd.boardPlayF v k (bd.free.fmap v)).2.record.ko = Move.none := by
  obtain ⟨sound, hgroup, hstones, hko⟩ := h.boardPlayOutside hv few k
  unfold Board.boardPlayF
  rw [heye, remove_suicide k.other_ne, ← hstones]
  rw [Bool.not_false, if_pos rfl]
  dsimp only
  generalize bd.boardPlayOutside v k (bd.free.fmap v) = s at *
  obtain ⟨bd₁, group⟩ := s
  dsimp only at *
  subst hgroup
  have hself : bd₁.stoneAt v = some k := hstones ▸ afterCapture_self k.other_ne
  by_cases hlib : bd₁.gi.lib (bd₁.g v) = []
  · obtain ⟨captured, hcaptured⟩ := sound.capture hself hlib
    have h0 : (bd₁.gi.lib (bd₁.g v)).length = 0 := congrArg List.length hlib
    rw [if_pos h0]
    refine ⟨rfl, captured.of_fields rfl rfl rfl rfl rfl rfl (hashCommit_hash _), hcaptured, ?_⟩
    exact (boardGroupCapture_ko _ _).trans hko
  · rw [if_neg fun h0 => hlib (List.eq_nil_of_length_eq_zero h0),
      captureAt_of_not_dead fun hdead => hdead.2 ((sound.hasLiberty_iff hself).mpr hlib)]
    exact ⟨rfl, sound.of_fields rfl rfl rfl rfl rfl rfl (hashCommit_hash _), rfl, hko⟩

end Sound

/-! ## A move in an eye

All neighbors are stones of the opponent, or the margin.  So there is no group
to join, and the loop has only captures to make and to count. -/

/-- What the loop of `board_play_in_eye` knows of the captures: how many stones
there were, and a neighbor that was captured.  No stone is new. -/
structure Counts (bd bd' : Board) (n n' : ℕ) (cap cap' : ℤ) : Prop where
  shrink : ∀ u c, bd'.stoneAt u = some c → bd.stoneAt u = some c
  total : n' + (occupied bd'.stoneAt).ncard = n + (occupied bd.stoneAt).ncard
  last : (n' = n ∧ cap' = cap) ∨
    ∃ d : ℕ, cap' = (d : ℤ) ∧ bd.stoneAt d ≠ none ∧ bd'.stoneAt d = none

/-- What two steps have counted, they have counted together. -/
theorem Counts.trans {bd₁ bd₂ bd₃ : Board} {n₁ n₂ n₃ : ℕ} {a₁ a₂ a₃ : ℤ}
    (h : Counts bd₁ bd₂ n₁ n₂ a₁ a₂) (h' : Counts bd₂ bd₃ n₂ n₃ a₂ a₃) :
    Counts bd₁ bd₃ n₁ n₃ a₁ a₃ := by
  refine ⟨fun u c hu => h.shrink u c (h'.shrink u c hu), h'.total.trans h.total, ?_⟩
  rcases h'.last with ⟨hn, ha⟩ | ⟨d, ha, hd, hd'⟩
  · rw [hn, ha]
    refine h.last.imp id ?_
    rintro ⟨d, ha, hd, hd'⟩
    refine ⟨d, ha, hd, ?_⟩
    by_contra hne
    obtain ⟨c, hc⟩ := Option.ne_none_iff_exists'.mp hne
    exact Option.some_ne_none c ((h'.shrink d c hc).symm.trans hd')
  · obtain ⟨c, hc⟩ := Option.ne_none_iff_exists'.mp hd
    exact .inr ⟨d, ha, (h.shrink d c hc).symm ▸ Option.some_ne_none c, hd'⟩

/-- A step that leaves the stones as they are counts nothing. -/
theorem Counts.same {n : ℕ} {cap : ℤ} (hstones : bd'.stoneAt = bd.stoneAt) :
    Counts bd bd' n n cap cap :=
  ⟨fun _ _ hu => hstones ▸ hu, by rw [hstones], .inl ⟨rfl, rfl⟩⟩

theorem occupied_remove (set : Set ℕ) (s : ℕ → Option Color) :
    occupied (Go.remove set s) = occupied s \ set := by
  ext w
  show Go.remove set s w ≠ none ↔ s w ≠ none ∧ w ∉ set
  by_cases hw : w ∈ set
  · rw [remove_of_mem hw]
    exact iff_of_false (fun h => h rfl) fun h => h.2 hw
  · rw [remove_of_not_mem hw]
    exact (and_iff_left hw).symm

/-- `foreach_in_group` visits every stone once, so the length of its list is the
number of stones. -/
theorem Groups.ncard_class {adj : ℕ → ℕ → Prop} {s : ℕ → Option Color} {taken : ℕ → Prop}
    (h : Groups ok adj bd s v taken) (hu : bd.g u ≠ 0) :
    {w | bd.g w = bd.g u}.ncard = (bd.foreachInGroup (bd.g u)).length := by
  obtain ⟨-, nodup, mem⟩ := h.foreachInGroup hu
  have hset : {w | bd.g w = bd.g u} = ((bd.foreachInGroup (bd.g u)).toFinset : Set ℕ) := by
    ext w
    rw [List.coe_toFinset]
    exact (mem w).symm
  rw [hset, Set.ncard_coe_finset, List.toFinset_card_of_nodup nodup]

namespace Playing

variable (h : Playing ok bd v k done)
include h

/-- The stones of a group that is captured are counted, and the neighbor is one
of them. -/
theorem counts_capture (hd : bd.stoneAt d = some k.other) (n : ℕ) (cap : ℤ) :
    Counts bd
      (((bd.incNeighborCount d k).boardGroupRmlib (bd.g d) v).boardGroupCapture (bd.g d)).2 n
      (n + (((bd.incNeighborCount d k).boardGroupRmlib (bd.g d) v).boardGroupCapture
        (bd.g d)).1) cap d := by
  have hg : bd.g d ≠ 0 := h.g_ne_zero hd
  have hdv : d ≠ v := ne_of_free h.stoneAt_self hd
  have groups := h.groups_other hd
  have hclass := groups.ncard_class hg
  have hstones := groups.stoneAt_capture hg
  set bd₂ := (bd.incNeighborCount d k).boardGroupRmlib (bd.g d) v
  have hstones : (bd₂.boardGroupCapture (bd.g d)).2.stoneAt =
      Go.remove {w | bd.g w = bd.g d} bd.stoneAt := hstones
  have sub : {w | bd.g w = bd.g d} ⊆ occupied bd.stoneAt := by
    intro w (hw : bd.g w = bd.g d)
    have hcolor : bd.joined v k w = some k.other :=
      groups.labels.color hw ((joined_of_ne hdv).trans hd)
    have hwv : w ≠ v := by
      rintro rfl
      exact h.joined_ne_other hcolor
    show bd.stoneAt w ≠ none
    rw [← joined_of_ne (k := k) hwv, hcolor]
    exact Option.some_ne_none _
  refine ⟨fun u c hu => ?_, ?_, .inr ⟨d, rfl, ?_, ?_⟩⟩
  · rw [hstones] at hu
    exact (remove_eq_some_iff.mp hu).2
  · have hfinite : (occupied bd.stoneAt).Finite :=
      h.finite_place.subset fun w hw => fun hnone => by
        by_cases hwv : w = v
        · rw [hwv, place_self] at hnone
          exact Option.some_ne_none k hnone
        · exact hw ((place_of_ne hwv).symm.trans hnone)
    have hle := Set.ncard_le_ncard sub hfinite
    have hlen : {w | bd.g w = bd.g d}.ncard = (bd₂.foreachInGroup (bd.g d)).length := hclass
    show n + (bd₂.foreachInGroup (bd.g d)).length + _ = _
    rw [hstones, occupied_remove, Set.ncard_sdiff sub (hfinite.subset sub)]
    omega
  · rw [hd]
    exact Option.some_ne_none _
  · rw [hstones]
    exact remove_of_mem rfl

/-- One neighbor of a stone that is played in an eye: its group loses the
liberty, and is captured where it was the last. -/
theorem step_eye (hdv : d ≠ v) (hnew : d ∉ done) (hk : bd.stoneAt d ≠ some k) (n : ℕ) (cap : ℤ) :
    ∃ bd' n' cap', captureOneNeighbor v k (bd, n, cap) d = (bd', n', cap') ∧
      Captures ok bd bd' v k done d ∧ Counts bd bd' n n' cap cap' := by
  by_cases hg : bd.g d = 0
  · exact ⟨_, _, _, if_pos hg, h.step_unlabelled hdv hnew hg, .same rfl⟩
  obtain ⟨c, hc⟩ := h.exists_color hdv hg
  obtain rfl : c = k.other := by
    cases c <;> cases k <;> first | rfl | exact absurd hc hk
  have hplay : captureOneNeighbor v k (bd, n, cap) d = _ := if_neg hg
  rw [hplay]
  dsimp only
  by_cases hlib : ((bd.incNeighborCount d k).boardGroupRmlib (bd.g d) v).gi.lib (bd.g d) = []
  · have h0 : (((bd.incNeighborCount d k).boardGroupRmlib (bd.g d) v).gi.lib (bd.g d)).length = 0 :=
      congrArg List.length hlib
    exact ⟨_, _, _, if_pos h0, h.step_capture hnew hc hlib, h.counts_capture hc n cap⟩
  · exact ⟨_, _, _, if_neg fun h0 => hlib (List.eq_nil_of_length_eq_zero h0),
      h.step_alive hnew hc hlib, .same rfl⟩

/-- The loop of `board_play_in_eye`, by induction along the neighbors. -/
theorem run_eye {ds : List ℕ} (hds : ∀ d ∈ ds, d ≠ v) (nodup : (done ++ ds).Nodup)
    (hk : ∀ d ∈ ds, bd.stoneAt d ≠ some k) (n : ℕ) (cap : ℤ) :
    ∃ bd' n' cap', ds.foldl (captureOneNeighbor v k) (bd, n, cap) = (bd', n', cap') ∧
      Playing ok bd' v k (done ++ ds) ∧
      Go.place bd'.stoneAt k v = ds.foldl (Go.captureAt near k.other) (Go.place bd.stoneAt k v) ∧
      Counts bd bd' n n' cap cap' := by
  induction ds generalizing bd done n cap with
  | nil => exact ⟨bd, n, cap, rfl, (List.append_nil done).symm ▸ h, rfl, .same rfl⟩
  | cons d ds ih =>
      obtain ⟨hdv, hds⟩ := List.forall_mem_cons.mp hds
      obtain ⟨hkd, hk⟩ := List.forall_mem_cons.mp hk
      have hnew : d ∉ done := fun hd =>
        (List.nodup_append.mp nodup).2.2 d hd d List.mem_cons_self rfl
      obtain ⟨bd₁, n₁, cap₁, hstep, captures, counts⟩ := h.step_eye hdv hnew hkd n cap
      rw [List.append_cons] at nodup ⊢
      obtain ⟨bd', n', cap', hrun, playing, hstones, counts'⟩ := ih captures.playing hds nodup
        (fun e he hke => hk e he (counts.shrink e k hke)) n₁ cap₁
      refine ⟨bd', n', cap', ?_, playing, ?_, counts.trans counts'⟩
      · rw [List.foldl_cons, hstep, hrun]
      · rw [hstones, captures.stones]
        rfl

end Playing

end Board

end EstarGo
