import EstarGo.Board.Moves

/-!
# The board plays by the rules

`boardIsValidPlay` accepts the legal moves, and `boardPlay` leaves the position
of the rules: the groups, liberties and counts that the board keeps up to date
are what the rules compute from the stones.

## Main definitions

* `Board.Represents` — a board and a position of the rules with the same stones
  and the same ban.

## Main results

* `Sound.boardIsValidPlay_iff`: the moves that are accepted.
* `Sound.boardPlay`, `Sound.boardPlay_of_illegal`, `Sound.boardPlay_pass`: the
  board refines the rules, and no call breaks its structures.

## Design notes

**What the code tests.**  It knows an eye from the counts of neighbors, a
capture from a group in atari, and the ko from one move that it remembers.  The
rules ask whether every neighbor is the opponent's, whether a group loses its
last liberty, and which moves are banned.  The first three lemmas are these
three answers.

**Illegal calls change nothing.**  `board_play` tests again what
`board_is_valid_play` has tested, and returns before it has written anything.
So a run may hold any calls, and only the legal ones count.
-/

namespace EstarGo

open Verif Verif.Go Stones

namespace Board

variable {bd bd' : Board} {d u v : ℕ} {k c : Color} {ok : Prop} {done : List ℕ}

/-- Two disjoint properties cover a list when their counts do.  It is how counts
of neighbors come to say something of each neighbor. -/
theorem countP_add_eq_length {α : Type} {l : List α} {p q : α → Prop} [DecidablePred p]
    [DecidablePred q] (disjoint : ∀ a, p a → ¬ q a) :
    (l.countP fun a => p a) + (l.countP fun a => q a) = l.length ↔ ∀ a ∈ l, p a ∨ q a := by
  induction l with
  | nil => simp
  | cons a l ih =>
      have hle := List.countP_le_length (p := fun a => decide (p a)) (l := l)
      have hle' : (l.countP fun a => p a) + (l.countP fun a => q a) ≤ l.length := by
        clear ih hle
        induction l with
        | nil => simp
        | cons b l ih =>
            have := disjoint b
            simp only [List.countP_cons, List.length_cons]
            by_cases hp : p b <;> by_cases hq : q b <;> simp [hp, hq] <;> first | tauto | omega
      have := disjoint a
      rw [List.forall_mem_cons, ← ih]
      simp only [List.countP_cons, List.length_cons]
      by_cases hp : p a <;> by_cases hq : q a <;> simp [hp, hq] <;> first | tauto | omega

namespace Sound

variable (h : Sound ok bd)
include h

/-- `board_is_eyelike` reads the neighbor counts, which say that every neighbor
is the opponent's or off the board. -/
theorem boardIsEyelike_iff (hv : onBoard v = true) :
    bd.boardIsEyelike v k.other = true ↔ surrounded near Color.other bd.stoneAt k v := by
  unfold boardIsEyelike surrounded
  rw [decide_eq_true_iff, h.ledger.counts v _ hv k.other.stone_ne_none,
    h.ledger.counts v _ hv (by decide)]
  show ((foreachNeighbor v).countP fun d => bd.b d = k.other.stone) +
    ((foreachNeighbor v).countP fun d => bd.b d = .offboard) = (foreachNeighbor v).length ↔ _
  rw [countP_add_eq_length fun d hd hoff => k.other.stone_ne_offboard (hd.symm.trans hoff)]
  constructor
  · intro hall d hadj
    refine stoneAt_eq_some_iff.mpr ((hall d hadj.2.2).resolve_right fun hoff => ?_)
    exact absurd (hadj.2.1.symm.trans ((h.ledger.margin d).mp hoff)) (by decide)
  · intro hall d hd
    by_cases hon : onBoard d = true
    · exact .inl (stoneAt_eq_some_iff.mp (hall d ⟨hv, hon, hd⟩))
    · exact .inr ((h.ledger.margin d).mpr (Bool.not_eq_true _ ▸ hon))

/-- A group in atari, next to a point that is empty: that point is its only
liberty. -/
theorem length_eq_one_iff (hv : bd.b v = .none) (hd : bd.stoneAt d = some c)
    (hnext : v ∈ foreachNeighbor d) :
    (bd.gi.lib (bd.g d)).length = 1 ↔
      ∀ u ∈ Go.group near bd.stoneAt c d, ∀ e, near u e → bd.stoneAt e = none → e = v := by
  have hg : bd.g d ≠ 0 := h.groups.labels.ne_null hd
  rw [(h.groups.libs (bd.g d)).length_eq_one_iff (by decide), h.groups.group_eq rfl hd]
  have hmem (e : ℕ) : e ∈ bd.openLibs 0 (fun _ => False) (bd.g d) ↔
      bd.b e = .none ∧ ∃ u, bd.g u = bd.g d ∧ e ∈ foreachNeighbor u := by
    show (bd.g d ≠ 0 ∧ bd.b e = .none ∧ _) ∧ (e = 0 → ¬ False) ↔ _
    simp [hg]
  have hlib : v ∈ bd.openLibs 0 (fun _ => False) (bd.g d) := (hmem v).mpr ⟨hv, d, rfl, hnext⟩
  constructor
  · rintro ⟨x, hx⟩ u hu e hadj he
    have he : e ∈ bd.openLibs 0 (fun _ => False) (bd.g d) :=
      (hmem e).mpr ⟨(h.ledger.stoneAt_eq_none_iff hadj.2.1).mp he, u, hu, hadj.2.2⟩
    rw [hx] at he hlib
    exact he.trans hlib.symm
  · intro hall
    refine ⟨v, Set.eq_singleton_iff_unique_mem.mpr ⟨hlib, fun e he => ?_⟩⟩
    obtain ⟨hfree, u, hu, hnext⟩ := (hmem e).mp he
    have hon := h.onBoard_of_free hfree
    have hgu : bd.g u ≠ 0 := fun h0 => hg (hu.symm.trans h0)
    exact hall u hu e ⟨h.groups.on u hgu, hon, hnext⟩ (stoneAt_of_free hfree)

/-- On a surrounded point, some group is in atari exactly when the stone
captures. -/
theorem any_atari_iff (hv : bd.b v = .none)
    (hsurrounded : surrounded near Color.other bd.stoneAt k v) :
    ((foreachNeighbor v).any fun d => (bd.gi.lib (bd.g d)).length = 1) = true ↔
      (captured near Color.other bd.stoneAt k v).Nonempty := by
  have hboard := h.onBoard_of_free hv
  have free : bd.stoneAt v = none := stoneAt_of_free hv
  have atari (d : ℕ) (hadj : near v d) : (bd.gi.lib (bd.g d)).length = 1 ↔
      ¬ HasLiberty near (Go.place bd.stoneAt k v) k.other d := by
    rw [h.length_eq_one_iff hv (hsurrounded d hadj) (near_symm _ _ hadj).2.2,
      not_hasLiberty_place_iff free k.other_ne]
  have hcolor (d : ℕ) (hadj : near v d) : Go.place bd.stoneAt k v d = some k.other :=
    (place_eq_some_iff free k.other_ne).mpr (hsurrounded d hadj)
  rw [List.any_eq_true]
  constructor
  · rintro ⟨d, hd, hlibs⟩
    have hlibs : (bd.gi.lib (bd.g d)).length = 1 := of_decide_eq_true hlibs
    have hg : bd.g d ≠ 0 := by
      intro h0
      rw [h0, h.groups.lib_eq_nil fun _ _ => rfl] at hlibs
      exact absurd hlibs (by decide)
    have hadj : near v d := ⟨hboard, h.groups.on d hg, hd⟩
    exact ⟨d, d, hadj, hcolor d hadj, self_mem_group, (atari d hadj).mp hlibs⟩
  · rintro ⟨u, d, hadj, -, -, hlib⟩
    exact ⟨d, hadj.2.2, decide_eq_true ((atari d hadj).mpr hlib)⟩

end Sound

/-- A board that stands for a position of the rules: the stones are the same,
and the ko is the ban. -/
structure Represents (bd : Board) (p : Position ℕ Color) : Prop where
  stone : bd.stoneAt = p.stone
  ko : ∀ v k, p.ko v k ↔ bd.record.ko = ⟨v, k.stone⟩

/-- **The valid moves are the legal ones**, on the points of the board.  The
source decides by counts of neighbors and by lists of liberties, and the rules
by groups. -/
theorem Sound.boardIsValidPlay_iff (h : Sound ok bd) {p : Position ℕ Color}
    (hrep : bd.Represents p) (hv : onBoard v = true) :
    bd.boardIsValidPlay k v = true ↔ p.legal near Color.other k v := by
  have hko : p.ko v k ↔ bd.record.ko.coord = v ∧ bd.record.ko.color = k.stone := by
    rw [hrep.ko]
    constructor
    · rintro hko
      rw [hko]
      exact ⟨rfl, rfl⟩
    · rintro ⟨hcoord, hcolor⟩
      exact congrArg₂ Move.mk hcoord hcolor
  unfold boardIsValidPlay Position.legal
  rw [← hrep.stone, hko, h.ledger.stoneAt_eq_none_iff hv]
  by_cases hfree : bd.b v = .none
  · rw [if_neg (not_not.mpr hfree), and_iff_right hfree]
    by_cases hs : surrounded near Color.other bd.stoneAt k v
    · rw [(h.boardIsEyelike_iff hv).mpr hs, or_iff_right (not_not.mpr hs)]
      rw [← h.any_atari_iff hfree hs, if_neg (show ¬ (!true) = true from nofun)]
      by_cases hban : bd.record.ko.coord = v ∧ bd.record.ko.color = k.stone
      · rw [if_pos hban]
        exact iff_of_false Bool.false_ne_true fun h => h.1 hban
      · rw [if_neg hban, and_iff_right hban]
    · have heye : bd.boardIsEyelike v k.other = false :=
        Bool.not_eq_true _ ▸ fun he => hs ((h.boardIsEyelike_iff hv).mp he)
      rw [heye]
      exact iff_of_true rfl (.inl hs)
  · rw [if_pos hfree]
    exact iff_of_false Bool.false_ne_true fun h => hfree h.1

/-! ## A move in an eye

The stone is surrounded and captures.  The captures are those of the rules, so
what is left to compare is the ko. -/

/-- The captured stones are those that are gone, since a capture removes nothing
else. -/
theorem mem_captured_iff_gone {s : ℕ → Option Color} {t : ℕ → Option Color} (hv : s v = none)
    (hstones : Go.place t k v = afterCapture near Color.other s k v) :
    captured near Color.other s k v = occupied s \ occupied t := by
  have hself : v ∉ captured near Color.other s k v := self_not_mem_captured k.other_ne
  ext u
  show u ∈ captured near Color.other s k v ↔ s u ≠ none ∧ ¬ t u ≠ none
  rw [not_not]
  by_cases huv : u = v
  · rw [huv]
    exact iff_of_false hself fun h => h.1 hv
  · have hu := congrFun hstones u
    rw [place_of_ne huv] at hu
    by_cases mem : u ∈ captured near Color.other s k v
    · refine iff_of_true mem ⟨?_, ?_⟩
      · rw [← place_of_ne (k := k) (s := s) huv, color_of_mem_dead mem]
        exact Option.some_ne_none _
      · rw [hu, afterCapture, remove_of_mem mem]
    · refine iff_of_false mem fun h => h.1 ?_
      rw [hu, afterCapture, remove_of_not_mem mem, place_of_ne huv] at h
      exact h.2

/-- A move that captures is no suicide. -/
theorem remove_suicide_of_captured {s : ℕ → Option Color}
    (hcap : (captured near Color.other s k v).Nonempty) :
    Go.remove (suicide near Color.other s k v) (afterCapture near Color.other s k v) =
      afterCapture near Color.other s k v := by
  rw [remove_suicide k.other_ne, captureAt_of_not_dead fun hdead =>
    hdead.2 (hasLiberty_of_captured hcap)]

/-- **`board_play_in_eye`** on a legal move: the stones and the ko are those of
the rules.  It is a ko exactly where a single stone was captured, and on that
stone's point. -/
theorem Sound.boardPlayInEye (h : Sound ok bd) (hv : bd.b v = .none)
    (few : ok → (occupied bd.stoneAt).ncard + 1 < boardMaxGroups)
    (hs : surrounded near Color.other bd.stoneAt k v)
    (hko : ¬ (k.stone = bd.record.ko.color ∧ (v : ℤ) = bd.record.ko.coord))
    (hcap : (captured near Color.other bd.stoneAt k v).Nonempty) :
    (bd.boardPlayInEye v k (bd.free.fmap v)).1 = 1 ∧
      Sound ok (bd.boardPlayInEye v k (bd.free.fmap v)).2 ∧
      (bd.boardPlayInEye v k (bd.free.fmap v)).2.stoneAt =
        Go.remove (suicide near Color.other bd.stoneAt k v)
          (afterCapture near Color.other bd.stoneAt k v) ∧
      ∀ u c, (bd.boardPlayInEye v k (bd.free.fmap v)).2.record.ko = ⟨(u : ℕ), Color.stone c⟩ ↔
        c = k.other ∧ captured near Color.other bd.stoneAt k v = {u} := by
  have hboard := h.onBoard_of_free hv
  have free : bd.stoneAt v = none := stoneAt_of_free hv
  have hk (d : ℕ) (hd : d ∈ foreachNeighbor v) : bd.stoneAt d ≠ some k := by
    intro hdk
    have hon := h.on_of_stone (u := d) (hdk ▸ Option.some_ne_none k)
    exact k.other_ne (Option.some.inj ((hs d ⟨hboard, hon, hd⟩).symm.trans hdk))
  obtain ⟨bd₁, n, cap, hrun, playing, hstones, counts⟩ := (h.start hv few k).run_eye
    (fun d => ne_of_mem_foreachNeighbor hboard) (nodup_foreachNeighbor hboard) hk 0 GoBoard.posPass
  rw [List.nil_append] at playing
  have counts : Counts bd bd₁ 0 n GoBoard.posPass cap := ⟨counts.shrink, counts.total, counts.last⟩
  have hstones : Go.place bd₁.stoneAt k v = afterCapture near Color.other bd.stoneAt k v :=
    hstones.trans (foldl_captureAt_neighbors bd.stoneAt k hboard fun u => h.on_of_stone)
  -- none of the neighbors has the color, so the stone has no group
  have hgv : bd₁.g v = 0 := by
    by_contra hne
    obtain ⟨a, ha, hga⟩ := playing.behind hne
    have hav := ne_of_mem_foreachNeighbor hboard ha
    have hcolor := playing.groups.labels.color (k := k) hga (by
      rw [joined_of_label hne, place_self])
    rw [joined_of_ne hav] at hcolor
    exact hk a ha (counts.shrink a k hcolor)
  -- the count of the loop is the number of the captured stones
  have hgone := mem_captured_iff_gone free hstones
  have hsub : occupied bd₁.stoneAt ⊆ occupied bd.stoneAt := by
    intro u hu
    obtain ⟨c, hc⟩ := Option.ne_none_iff_exists'.mp hu
    show bd.stoneAt u ≠ none
    rw [counts.shrink u c hc]
    exact Option.some_ne_none c
  have hn : n = (captured near Color.other bd.stoneAt k v).ncard := by
    have htotal := counts.total
    have hle := Set.ncard_le_ncard hsub h.finite_stones
    rw [hgone, Set.ncard_sdiff hsub (h.finite_stones.subset hsub)]
    omega
  have hsound (bd₂ : Board) (hb : bd₂.b = (bd₁.settled v k).b) (hg : bd₂.g = (bd₁.settled v k).g)
      (hp : bd₂.p = (bd₁.settled v k).p) (hgi : bd₂.gi = (bd₁.settled v k).gi) (hn : bd₂.n = bd₁.n)
      (hfree : bd₂.free = bd₁.free) (hhash : bd₂.hashes.hash = bd₁.hashes.hash ^^^ hashAt v k) :
      Sound ok bd₂ ∧ bd₂.stoneAt = Go.remove (suicide near Color.other bd.stoneAt k v)
        (afterCapture near Color.other bd.stoneAt k v) := by
    rw [remove_suicide_of_captured hcap, ← hstones]
    exact playing.settled_sound hb hg hp hgi hn hfree hhash
  have hany := (h.any_atari_iff hv hs).mpr hcap
  have hv0 := ne_zero_of_onBoard hboard
  have hsettled : bd₁.settled v k = { bd₁ with b := Function.update bd₁.b v k.stone }.newGroup v :=
    if_pos hgv
  unfold Board.boardPlayInEye
  rw [if_neg hko, if_neg (not_not.mpr hany), hrun]
  dsimp only
  rw [if_neg hv0]
  refine ⟨rfl, ?_⟩
  rw [← and_assoc]
  by_cases hone : n = 1
  · simp only [if_pos hone]
    constructor
    · refine hsound _ ?_ ?_ ?_ ?_ rfl rfl (hashCommit_hash _)
      all_goals
        rw [hsettled]
        rfl
    · intro u c
      obtain ⟨d, hcap', hd, hd'⟩ := counts.last.resolve_left fun h0 => by omega
      have hmem : d ∈ captured near Color.other bd.stoneAt k v := by
        rw [hgone]
        exact ⟨hd, not_not.mpr hd'⟩
      obtain ⟨w, hw⟩ := Set.ncard_eq_one.mp (hn.symm.trans hone)
      rw [hw] at hmem ⊢
      obtain rfl : d = w := hmem
      rw [Set.singleton_eq_singleton_iff, hcap', Move.mk.injEq, Nat.cast_inj,
        Color.stone_injective.eq_iff, and_comm]
      exact and_congr_left' eq_comm
  · simp only [if_neg hone]
    constructor
    · refine hsound _ ?_ ?_ ?_ ?_ rfl rfl (hashCommit_hash _)
      all_goals
        rw [hsettled]
        rfl
    · intro u c
      refine iff_of_false (fun hmove => ?_) fun hset => hone ?_
      · exact c.stone_ne_none (congrArg Move.color hmove).symm
      · rw [hn, hset.2, Set.ncard_singleton]

/-! ## Every call of `board_play`

A legal move outside an eye, a legal one inside, an illegal one and a pass. -/

/-- The ban, as the code compares it with a move. -/
theorem Represents.ko_iff {p : Position ℕ Color} (hrep : bd.Represents p) :
    p.ko v k ↔ k.stone = bd.record.ko.color ∧ (v : ℤ) = bd.record.ko.coord := by
  rw [hrep.ko]
  constructor
  · intro hko
    rw [hko]
    exact ⟨rfl, rfl⟩
  · rintro ⟨hcolor, hcoord⟩
    exact congrArg₂ Move.mk hcoord.symm hcolor.symm

/-- A legal move is on a free point of the board. -/
theorem Sound.free_of_legal (h : Sound ok bd) {p : Position ℕ Color} (hrep : bd.Represents p)
    (hlegal : p.legal near Color.other k v) : bd.b v = .none := by
  have hv : onBoard v = true := by
    by_contra hoff
    have alone (d : ℕ) : ¬ near v d := fun hadj => hoff hadj.1
    rcases hlegal.2 with hs | ⟨-, u, d, hadj, -⟩
    · exact hs fun d hadj => absurd hadj (alone d)
    · exact alone d hadj
  exact (h.ledger.stoneAt_eq_none_iff hv).mp (hrep.stone ▸ hlegal.1)

/-- On an empty point `board_play` looks up the place of the point in the list
of free ones and goes on. -/
theorem boardPlay_eq (hv : bd.b v = .none) :
    bd.boardPlay v k = bd.boardPlayF v k (bd.free.fmap v) := by
  have hpass : (v : ℤ) ≠ GoBoard.posPass := by
    show (v : ℤ) ≠ -1
    omega
  unfold boardPlay
  rw [if_neg hpass, Int.toNat_natCast, if_neg (not_not.mpr hv)]

/-- **A legal move** leaves the position of the rules, and is reported as
played.  With `few` it keeps the assertion on the groups in atari as well. -/
theorem Sound.boardPlay (h : Sound ok bd) {p : Position ℕ Color} (hrep : bd.Represents p)
    (few : ok → (occupied bd.stoneAt).ncard + 1 < boardMaxGroups)
    (hlegal : p.legal near Color.other k v) :
    0 ≤ (bd.boardPlay v k).1 ∧ Sound ok (bd.boardPlay v k).2 ∧
      (bd.boardPlay v k).2.Represents (p.play near Color.other k v) := by
  have hv := h.free_of_legal hrep hlegal
  have hboard := h.onBoard_of_free hv
  rw [boardPlay_eq hv]
  by_cases hs : surrounded near Color.other bd.stoneAt k v
  · have heye := (h.boardIsEyelike_iff hboard).mpr hs
    obtain ⟨hko, hcap⟩ := hlegal.2.resolve_left fun hnot => hnot (hrep.stone ▸ hs)
    rw [hrep.ko_iff] at hko
    obtain ⟨hret, sound, hstones, hko'⟩ := h.boardPlayInEye hv few hs hko (hrep.stone ▸ hcap)
    have hplay : bd.boardPlayF v k (bd.free.fmap v) = bd.boardPlayInEye v k (bd.free.fmap v) := by
      unfold boardPlayF
      rw [heye]
      rfl
    rw [hplay]
    rw [hrep.stone] at hstones hs
    refine ⟨hret.symm ▸ by decide, sound, hstones, fun u c => ?_⟩
    rw [hko', hrep.stone]
    exact and_iff_right hs
  · have heye : bd.boardIsEyelike v k.other = false :=
      Bool.not_eq_true _ ▸ fun he => hs ((h.boardIsEyelike_iff hboard).mp he)
    obtain ⟨hret, sound, hstones, hko⟩ := h.boardPlayF_outside hv few heye
    rw [hrep.stone] at hstones hs
    refine ⟨hret.symm ▸ le_rfl, sound, hstones, fun u c => ?_⟩
    rw [hko]
    refine iff_of_false (fun h => hs h.1) fun hmove => ?_
    exact c.stone_ne_none (congrArg Move.color hmove).symm

/-- **An illegal move** is rejected, and changes nothing. -/
theorem Sound.boardPlay_of_illegal (h : Sound ok bd) {p : Position ℕ Color}
    (hrep : bd.Represents p) (hlegal : ¬ p.legal near Color.other k v) :
    bd.boardPlay v k = (-1, bd) := by
  by_cases hv : bd.b v = .none
  · have hboard := h.onBoard_of_free hv
    have free : p.stone v = none := hrep.stone ▸ stoneAt_of_free hv
    have hs : surrounded near Color.other bd.stoneAt k v := by
      by_contra hnot
      exact hlegal ⟨free, .inl (hrep.stone ▸ hnot)⟩
    have heye := (h.boardIsEyelike_iff hboard).mpr hs
    rw [boardPlay_eq hv]
    unfold boardPlayF Board.boardPlayInEye
    rw [heye, Bool.not_true, if_neg Bool.false_ne_true]
    by_cases hko : k.stone = bd.record.ko.color ∧ (v : ℤ) = bd.record.ko.coord
    · rw [if_pos hko]
    · have hany : ¬ ((foreachNeighbor v).any
          fun d => (bd.gi.lib (bd.g d)).length = 1) = true := by
        rw [h.any_atari_iff hv hs, hrep.stone]
        exact fun hcap => hlegal ⟨free, .inr ⟨hrep.ko_iff.not.mpr hko, hcap⟩⟩
      rw [if_neg hko, if_pos hany]
  · have hpass : (v : ℤ) ≠ GoBoard.posPass := by
      show (v : ℤ) ≠ -1
      omega
    unfold Board.boardPlay
    rw [if_neg hpass, Int.toNat_natCast, if_pos hv]

/-- The position after a pass: the ko is over, and the stones are as they
were. -/
def passed (p : Position ℕ Color) : Position ℕ Color := ⟨p.stone, fun _ _ => False⟩

/-- **A pass** leaves the stones as they are. -/
theorem Sound.boardPlay_pass (h : Sound ok bd) {p : Position ℕ Color} (hrep : bd.Represents p)
    (k : Color) : (bd.boardPlay GoBoard.posPass k).1 = 0 ∧
      Sound ok (bd.boardPlay GoBoard.posPass k).2 ∧
      (bd.boardPlay GoBoard.posPass k).2.Represents (passed p) := by
  refine ⟨rfl, h.of_fields rfl rfl rfl rfl rfl rfl rfl, hrep.stone, fun v c => ?_⟩
  exact iff_of_false id fun hmove => c.stone_ne_none (congrArg Move.color hmove).symm

/-! ## The empty board -/

/-- On the empty board the margin is off the board, and nothing else. -/
theorem emptyMap_eq_offboard_iff : emptyMap v = .offboard ↔ onBoard v = false := by
  unfold emptyMap
  cases onBoard v <;> decide

/-- There is no stone on the empty board. -/
theorem stoneAt_boardClear (c : ℕ) : boardClear.stoneAt c = none := by
  have hmap : emptyMap c ≠ .black ∧ emptyMap c ≠ .white := by
    unfold emptyMap
    cases Stones.onBoard c <;> decide
  refine Option.eq_none_iff_forall_ne_some.mpr fun k hk => ?_
  have hstone : emptyMap c = k.stone := stoneAt_eq_some_iff.mp hk
  cases k with
  | black => exact hmap.1 hstone
  | white => exact hmap.2 hstone

/-- **The empty board** is sound, and no assertion has failed on it.  So
whatever moves keep is true of every game. -/
theorem sound_boardClear (ok : Prop) : Sound ok boardClear := by
  have hstones : boardClear.stoneAt = fun _ => none := funext stoneAt_boardClear
  refine ⟨⟨?_, fun u hu => absurd rfl hu, fun u hu => absurd rfl hu, fun r => ?_, ?_, ?_⟩, ?_⟩
  · rw [hstones]
    exact ⟨fun _ => iff_of_true rfl rfl, fun k u w hu => absurd hu (by simp)⟩
  · refine (Sample.empty _ _).congr (Set.eq_empty_of_forall_notMem ?_).symm
    rintro e ⟨⟨h0, -, u, hu, -⟩, -⟩
    exact h0 hu.symm
  · exact ⟨List.nodup_nil, fun r => iff_of_false List.not_mem_nil Nat.zero_ne_one,
      fun _ => rfl, fun _ => Nat.zero_le _⟩
  · intro _
    have hempty : occupied boardClear.stoneAt = ∅ := by
      rw [hstones]
      exact Set.eq_empty_of_forall_notMem fun u hu => hu rfl
    rw [hempty, Set.ncard_empty]
    decide
  · refine ⟨fun c => emptyMap_eq_offboard_iff, fun c x hc _ => if_pos hc, ?_, fun c => ?_, ?_⟩
    · intro i c hc
      have hon : onBoard c = true := mem_points.mp (List.mem_of_getElem? hc)
      show (if onBoard c then points.idxOf c else 0) = i
      rw [if_pos hon]
      obtain ⟨hi, rfl⟩ := List.getElem?_eq_some_iff.mp hc
      exact nodup_points.idxOf_getElem i hi
    · show c ∈ points ↔ emptyMap c = .none ∧ c ∉ (∅ : Set ℕ)
      rw [mem_points, and_iff_left (Set.notMem_empty c)]
      unfold emptyMap
      cases onBoard c <;> decide
    · show 0 = xorKeys zobristKey emptyMap points
      have hkey (c : ℕ) : zobristKey c (emptyMap c) = 0 := by
        unfold emptyMap
        cases onBoard c <;> rfl
      unfold xorKeys
      induction points with
      | nil => rfl
      | cons c l ih => rw [List.foldr_cons, hkey, ← ih]; rfl

theorem represents_boardClear : boardClear.Represents Position.empty := by
  refine ⟨funext stoneAt_boardClear, fun v k => iff_of_false id fun hmove => ?_⟩
  exact k.stone_ne_none (congrArg Move.color hmove).symm

end Board

end EstarGo
