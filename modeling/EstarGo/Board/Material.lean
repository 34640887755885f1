import EstarGo.Board.Runs

/-!
# The captures

`captures[]` counts for each color the stones of the other one that have left
the board, those of a suicide among them.  So no stone gets lost: the stones of
a color that are on the board and the captures of its opponent are the stones
that it has played.

## Main definitions

* `Board.material` — the stones of a color on the board, and those that were
  captured.
* `tally` — some calls, and how many stones of each color were accepted.

## Main results

* `material_of_run`: the stones on the board and the captures after any calls of
  `board_play`.

## Design notes

**A second account of the same moves.**  The captures are counted where stones
are removed, in three places of the source, and never compared with anything.
What is proved here follows each of the three: the sum does not change when a
stone leaves the board, and grows by one when one comes.

**What a suicide counts for.**  The stones of a suicide are captures of the
opponent, like any others; the sum does not ask who has captured them.
-/

namespace EstarGo

open Verif Verif.Go Stones

namespace Board

variable {bd bd' : Board} {d u v r : ℕ} {k j c : Color} {ok : Prop} {done : List ℕ}

/-- The stones of a color on the board, and those that the opponent has
captured. -/
def material (bd : Board) (k : Color) : ℕ :=
  (points.countP fun c => bd.b c = k.stone) + bd.record.captures k.other.stone

theorem material_congr (hb : bd'.b = bd.b)
    (hcaptures : bd'.record.captures = bd.record.captures) (j : Color) :
    bd'.material j = bd.material j := by
  unfold material
  rw [hb, hcaptures]

/-! ## Stones leave the board

A removed stone is counted before it is taken off its point. -/

/-- Each color is the opponent of one. -/
theorem Color.other_injective : Function.Injective Color.other := by
  intro a b h
  cases a <;> cases b <;> first | rfl | exact absurd h (by decide)

/-- **A stone that is removed** is counted as captured, so the sum stays.  The
source counts first and removes then. -/
theorem material_removeStone {a : ℕ} (hon : onBoard a = true) (ha : bd.b a = c.stone) (r : ℕ)
    (j : Color) :
    ((bd.countCapture c.other).boardRemoveStone r c a).material j = bd.material j := by
  have hcount := countP_update (b := bd.b) (c := a) nodup_points Stone.none j.stone
  rw [if_neg fun h : a ∈ points ∧ Stone.none = j.stone => j.stone_ne_none h.2.symm, ha] at hcount
  show (points.countP fun e => Function.update bd.b a Stone.none e = j.stone) +
    Function.update bd.record.captures c.other.stone (bd.record.captures c.other.stone + 1)
      j.other.stone = _
  by_cases hjc : c = j
  · subst hjc
    rw [if_pos ⟨mem_points.mpr hon, rfl⟩] at hcount
    rw [Function.update_self]
    unfold material
    omega
  · rw [if_neg fun h => hjc (Color.stone_injective h.2)] at hcount
    rw [Function.update_of_ne fun h => hjc (Color.other_injective (Color.stone_injective h)).symm]
    unfold material
    omega

/-- So it does for the stones of a group, one after the other. -/
theorem material_removeStones {l : List ℕ} (nodup : l.Nodup) (hon : ∀ a ∈ l, onBoard a = true)
    (hcolor : ∀ a ∈ l, bd.b a = c.stone) (r : ℕ) (j : Color) :
    (bd.removeStones r l).material j = bd.material j := by
  induction l generalizing bd with
  | nil => rfl
  | cons a l ih =>
      obtain ⟨hal, hl⟩ := List.nodup_cons.mp nodup
      obtain ⟨hona, hon⟩ := List.forall_mem_cons.mp hon
      obtain ⟨ha, hcolor⟩ := List.forall_mem_cons.mp hcolor
      rw [removeStones_cons, colorAt_of_stone ha, ih hl hon fun e he => ?_,
        material_removeStone hona ha]
      have hea : e ≠ a := fun hea => hal (hea ▸ he)
      show Function.update bd.b a Stone.none e = _
      rw [Function.update_of_ne hea, hcolor e he]

/-- **A captured group** of one color leaves the sum as it is. -/
theorem Groups.material_capture {adj : ℕ → ℕ → Prop} {s : ℕ → Option Color} {taken : ℕ → Prop}
    (h : Groups ok adj bd s v taken) (hu : bd.g u ≠ 0)
    (hcolor : ∀ w, bd.g w = bd.g u → bd.b w = c.stone) (j : Color) :
    (bd.boardGroupCapture (bd.g u)).2.material j = bd.material j := by
  obtain ⟨-, nodup, mem⟩ := h.foreachInGroup hu
  have hon (a : ℕ) (ha : a ∈ bd.foreachInGroup (bd.g u)) : onBoard a = true :=
    h.on a (((mem a).mp ha).symm ▸ hu)
  exact material_removeStones nodup hon (fun a ha => hcolor a ((mem a).mp ha)) (bd.g u) j

/-! ## Around a stone that is played

The two loops over neighbors, with the invariants that are known of them. -/

namespace Playing

variable (h : Playing ok bd v k done)
include h

/-- A group of the opponent next to the stone is captured without loss. -/
theorem material_capture (hd : bd.stoneAt d = some k.other) (j : Color) :
    (((bd.incNeighborCount d k).boardGroupRmlib (bd.g d) v).boardGroupCapture (bd.g d)).2.material
      j = bd.material j := by
  have hdv : d ≠ v := ne_of_free h.stoneAt_self hd
  have groups := h.groups_other hd
  have hcolor (w : ℕ) (hw : bd.g w = bd.g d) : bd.b w = k.other.stone := by
    have hjoined : bd.joined v k w = some k.other :=
      groups.labels.color hw ((joined_of_ne hdv).trans hd)
    have hwv : w ≠ v := fun hwv => h.joined_ne_other (hwv ▸ hjoined)
    exact stoneAt_eq_some_iff.mp ((joined_of_ne hwv).symm.trans hjoined)
  exact groups.material_capture (h.g_ne_zero hd) hcolor j

/-- `play_one_neighbor` loses no stone: it removes none, or captures a group. -/
theorem material_playOneNeighbor (hdv : d ≠ v) (j : Color) :
    (playOneNeighbor v k (bd, bd.g v) d).1.material j = bd.material j := by
  by_cases hg : bd.g d = 0
  · have hplay : playOneNeighbor v k (bd, bd.g v) d = (bd.incNeighborCount d k, bd.g v) :=
      if_pos hg
    rw [hplay]
    rfl
  obtain ⟨c, hc⟩ := h.exists_color hdv hg
  have hplay : playOneNeighbor v k (bd, bd.g v) d = _ := if_neg hg
  rw [hplay]
  dsimp only
  by_cases hck : c = k
  · subst hck
    split
    · split
      · rfl
      · rfl
    · rw [if_neg fun hcond => ?_]
      · rfl
      · exact c.other_ne (Color.stone_injective (hcond.1.symm.trans (stoneAt_eq_some_iff.mp hc)))
  · obtain rfl : c = k.other := by
      cases c <;> cases k <;> first | rfl | exact absurd rfl hck
    rw [if_neg fun hcond => hck (Color.stone_injective
      ((stoneAt_eq_some_iff.mp hc).symm.trans hcond.1))]
    split
    · exact h.material_capture hc j
    · rfl

theorem material_run {ds : List ℕ} (hds : ∀ d ∈ ds, d ≠ v) (nodup : (done ++ ds).Nodup)
    (j : Color) :
    (ds.foldl (playOneNeighbor v k) (bd, bd.g v)).1.material j = bd.material j := by
  induction ds generalizing bd done with
  | nil => rfl
  | cons d ds ih =>
      obtain ⟨hdv, hds⟩ := List.forall_mem_cons.mp hds
      have hnew : d ∉ done := fun hd =>
        (List.nodup_append.mp nodup).2.2 d hd d List.mem_cons_self rfl
      obtain ⟨bd₁, hstep, captures⟩ := h.step hdv hnew
      have hkept := h.material_playOneNeighbor hdv j
      rw [List.append_cons] at nodup
      rw [hstep] at hkept
      rw [List.foldl_cons, hstep, ih captures.playing hds nodup, hkept]

/-- The captures in an eye lose no stone either. -/
theorem material_captureOneNeighbor (hdv : d ≠ v) (hk : bd.stoneAt d ≠ some k) (n : ℕ) (cap : ℤ)
    (j : Color) : (captureOneNeighbor v k (bd, n, cap) d).1.material j = bd.material j := by
  by_cases hg : bd.g d = 0
  · have hplay : captureOneNeighbor v k (bd, n, cap) d = (bd.incNeighborCount d k, n, cap) :=
      if_pos hg
    rw [hplay]
    rfl
  obtain ⟨c, hc⟩ := h.exists_color hdv hg
  obtain rfl : c = k.other := by
    cases c <;> cases k <;> first | rfl | exact absurd hc hk
  have hplay : captureOneNeighbor v k (bd, n, cap) d = _ := if_neg hg
  rw [hplay]
  dsimp only
  split
  · exact h.material_capture hc j
  · rfl

theorem material_run_eye {ds : List ℕ} (hds : ∀ d ∈ ds, d ≠ v) (nodup : (done ++ ds).Nodup)
    (hk : ∀ d ∈ ds, bd.stoneAt d ≠ some k) (n : ℕ) (cap : ℤ) (j : Color) :
    (ds.foldl (captureOneNeighbor v k) (bd, n, cap)).1.material j = bd.material j := by
  induction ds generalizing bd done n cap with
  | nil => rfl
  | cons d ds ih =>
      obtain ⟨hdv, hds⟩ := List.forall_mem_cons.mp hds
      obtain ⟨hkd, hk⟩ := List.forall_mem_cons.mp hk
      have hnew : d ∉ done := fun hd =>
        (List.nodup_append.mp nodup).2.2 d hd d List.mem_cons_self rfl
      obtain ⟨bd₁, n₁, cap₁, hstep, captures, counts⟩ := h.step_eye hdv hnew hkd n cap
      have hkept := h.material_captureOneNeighbor hdv hkd n cap j
      rw [List.append_cons] at nodup
      rw [hstep] at hkept
      rw [List.foldl_cons, hstep, ih captures.playing hds nodup
        (fun e he hke => hk e he (counts.shrink e k hke)), hkept]

end Playing

/-! ## Moves

A move adds its stone in the end, whether or not it then captures itself. -/

/-- The stone of a move is one more of its color. -/
theorem material_place (hv : bd.b v = .none) (hon : onBoard v = true)
    (hb : bd'.b = Function.update bd.b v k.stone)
    (hcaptures : bd'.record.captures = bd.record.captures) (j : Color) :
    bd'.material j = bd.material j + if j = k then 1 else 0 := by
  have hcount := countP_update (b := bd.b) (c := v) nodup_points k.stone j.stone
  rw [if_neg fun h : v ∈ points ∧ bd.b v = j.stone => j.stone_ne_none (h.2.symm.trans hv)] at hcount
  unfold material
  rw [hb, hcaptures]
  by_cases hjk : j = k
  · rw [if_pos ⟨mem_points.mpr hon, hjk ▸ rfl⟩] at hcount
    rw [if_pos hjk]
    omega
  · rw [if_neg fun h => hjk (Color.stone_injective h.2).symm] at hcount
    rw [if_neg hjk]
    omega

namespace Sound

variable (h : Sound ok bd)
include h

/-- A move outside an eye adds its stone, before its own group is looked at. -/
theorem material_outside (hv : bd.b v = .none)
    (few : ok → (occupied bd.stoneAt).ncard + 1 < boardMaxGroups) (j : Color) :
    (bd.boardPlayOutside v k (bd.free.fmap v)).1.material j =
      bd.material j + if j = k then 1 else 0 := by
  have hboard := h.onBoard_of_free hv
  have hgv : (bd.rmf (bd.free.fmap v)).g v = 0 :=
    (h.groups.labels.stone v).mpr (stoneAt_of_free hv)
  have start := h.start hv few k
  obtain ⟨bd₁, hrun, playing, -⟩ := start.run
    (fun d => ne_of_mem_foreachNeighbor hboard) (nodup_foreachNeighbor hboard)
  have hkept := start.material_run (fun d => ne_of_mem_foreachNeighbor hboard)
    (nodup_foreachNeighbor hboard) j
  rw [hrun] at hkept
  rw [hgv] at hrun
  have hkept : bd₁.material j = bd.material j := hkept
  rw [← hkept]
  refine material_place playing.free hboard ?_ ?_ j
  · unfold Board.boardPlayOutside
    rw [hrun]
    dsimp only
    split <;> rfl
  · unfold Board.boardPlayOutside
    rw [hrun]
    dsimp only
    split <;> rfl

theorem material_playF_outside (hv : bd.b v = .none)
    (few : ok → (occupied bd.stoneAt).ncard + 1 < boardMaxGroups)
    (heye : bd.boardIsEyelike v k.other = false) (j : Color) :
    (bd.boardPlayF v k (bd.free.fmap v)).2.material j =
      bd.material j + if j = k then 1 else 0 := by
  obtain ⟨sound, hgroup, hstones, -⟩ := h.boardPlayOutside hv few k
  rw [← h.material_outside hv few j]
  unfold Board.boardPlayF
  rw [heye, Bool.not_false, if_pos rfl]
  dsimp only
  generalize bd.boardPlayOutside v k (bd.free.fmap v) = s at *
  obtain ⟨bd₁, group⟩ := s
  dsimp only at *
  subst hgroup
  have hself : bd₁.stoneAt v = some k := hstones ▸ afterCapture_self k.other_ne
  refine (material_congr rfl rfl j).trans ?_
  split
  case isTrue =>
    have hcolor (w : ℕ) (hw : bd₁.g w = bd₁.g v) : bd₁.b w = k.stone :=
      stoneAt_eq_some_iff.mp (sound.groups.labels.color hw hself)
    exact sound.groups.material_capture (sound.groups.labels.ne_null hself) hcolor j
  case isFalse => rfl

/-- A move in an eye adds its stone. -/
theorem material_inEye (hv : bd.b v = .none)
    (few : ok → (occupied bd.stoneAt).ncard + 1 < boardMaxGroups)
    (hs : surrounded near Color.other bd.stoneAt k v)
    (hko : ¬ (k.stone = bd.record.ko.color ∧ (v : ℤ) = bd.record.ko.coord))
    (hcap : (captured near Color.other bd.stoneAt k v).Nonempty) (j : Color) :
    (bd.boardPlayInEye v k (bd.free.fmap v)).2.material j =
      bd.material j + if j = k then 1 else 0 := by
  have hboard := h.onBoard_of_free hv
  have hk (d : ℕ) (hd : d ∈ foreachNeighbor v) : bd.stoneAt d ≠ some k := by
    intro hdk
    have hon := h.on_of_stone (u := d) (hdk ▸ Option.some_ne_none k)
    exact k.other_ne (Option.some.inj ((hs d ⟨hboard, hon, hd⟩).symm.trans hdk))
  have start := h.start hv few k
  obtain ⟨bd₁, n, cap, hrun, playing, -, -⟩ := start.run_eye
    (fun d => ne_of_mem_foreachNeighbor hboard) (nodup_foreachNeighbor hboard) hk 0 GoBoard.posPass
  have hkept := start.material_run_eye (fun d => ne_of_mem_foreachNeighbor hboard)
    (nodup_foreachNeighbor hboard) hk 0 GoBoard.posPass j
  rw [hrun] at hkept
  have hkept : bd₁.material j = bd.material j := hkept
  have hany := (h.any_atari_iff hv hs).mpr hcap
  rw [← hkept]
  unfold Board.boardPlayInEye
  rw [if_neg hko, if_neg (not_not.mpr hany), hrun]
  dsimp only
  by_cases hone : n = 1
  · simp only [if_pos hone]
    refine material_place playing.free hboard ?_ ?_ j
    · rfl
    · rfl
  · simp only [if_neg hone]
    refine material_place playing.free hboard ?_ ?_ j
    · rfl
    · rfl

/-- **A legal move** adds its stone, to its color and to no other.  What it
captures only changes sides within the sum. -/
theorem material_play {p : Position ℕ Color} (hrep : bd.Represents p)
    (few : ok → (occupied bd.stoneAt).ncard + 1 < boardMaxGroups)
    (hlegal : p.legal near Color.other k v) (j : Color) :
    (bd.boardPlay v k).2.material j = bd.material j + if j = k then 1 else 0 := by
  have hv := h.free_of_legal hrep hlegal
  have hboard := h.onBoard_of_free hv
  rw [boardPlay_eq hv]
  by_cases hs : surrounded near Color.other bd.stoneAt k v
  · obtain ⟨hko, hcap⟩ := hlegal.2.resolve_left fun hnot => hnot (hrep.stone ▸ hs)
    rw [hrep.ko_iff] at hko
    have hplay : bd.boardPlayF v k (bd.free.fmap v) = bd.boardPlayInEye v k (bd.free.fmap v) := by
      unfold boardPlayF
      rw [(h.boardIsEyelike_iff hboard).mpr hs]
      rfl
    rw [hplay]
    exact h.material_inEye hv few hs hko (hrep.stone ▸ hcap) j
  · refine h.material_playF_outside hv few ?_ j
    exact Bool.not_eq_true _ ▸ fun he => hs ((h.boardIsEyelike_iff hboard).mp he)

end Sound

/-! ## Runs

An induction from the end of the game: the last call is legal and adds a stone,
or it is not and is refused. -/

/-- Some calls, and the stones of each color that were accepted: those of the
calls that did not return -1. -/
def tally (ms : List (Color × Option ℕ)) : Board × (Color → ℕ) :=
  ms.foldl (fun s m =>
    (s.1.call m,
      match m.2 with
      | some v =>
          if (s.1.boardPlay v m.1).1 = -1 then s.2 else Function.update s.2 m.1 (s.2 m.1 + 1)
      | none => s.2)) (boardClear, fun _ => 0)

theorem tally_concat (ms : List (Color × Option ℕ)) (m : Color × Option ℕ) :
    tally (ms ++ [m]) = ((tally ms).1.call m,
      match m.2 with
      | some v =>
          if ((tally ms).1.boardPlay v m.1).1 = -1 then (tally ms).2
          else Function.update (tally ms).2 m.1 ((tally ms).2 m.1 + 1)
      | none => (tally ms).2) := by
  unfold tally
  rw [List.foldl_append]
  rfl

theorem calls_concat (ms : List (Color × Option ℕ)) (m : Color × Option ℕ) :
    calls (ms ++ [m]) = (calls ms).call m := by
  unfold calls
  rw [List.foldl_append]
  rfl

/-- The board of the account is the board of the calls. -/
theorem tally_fst (ms : List (Color × Option ℕ)) : (tally ms).1 = calls ms := by
  induction ms using List.reverseRecOn with
  | nil => rfl
  | append_singleton ms m ih => rw [tally_concat, calls_concat, ih]

/-- The empty board has no stones, and none were captured. -/
theorem material_boardClear (j : Color) : boardClear.material j = 0 := by
  have hnone : (points.countP fun c => emptyMap c = j.stone) = 0 := by
    refine List.countP_eq_zero.mpr fun c _ hc => ?_
    have hc := of_decide_eq_true hc
    unfold emptyMap at hc
    split at hc
    · exact j.stone_ne_none hc.symm
    · exact j.stone_ne_offboard hc.symm
  have hcaptures : boardClear.record.captures j.other.stone = 0 := rfl
  unfold material
  rw [hcaptures, Nat.add_zero]
  exact hnone

/-- The stones that were accepted are those the board accounts for. -/
theorem tally_snd (ms : List (Color × Option ℕ)) (j : Color) :
    (tally ms).2 j = (calls ms).material j := by
  induction ms using List.reverseRecOn with
  | nil => exact (material_boardClear j).symm
  | append_singleton ms m ih =>
      obtain ⟨sound, hrep⟩ := sound_calls ms
      obtain ⟨k, _ | v⟩ := m
      · rw [tally_concat, calls_concat]
        exact ih
      · rw [tally_concat, calls_concat, tally_fst]
        show (if ((calls ms).boardPlay v k).1 = -1 then (tally ms).2
          else Function.update (tally ms).2 k ((tally ms).2 k + 1)) j =
            ((calls ms).boardPlay v k).2.material j
        by_cases hlegal : (ruleSteps ms).legal near Color.other k v
        · rw [if_neg fun hret => (sound.rejects_iff hrep).mp hret hlegal,
            sound.material_play hrep False.elim hlegal, ← ih]
          by_cases hjk : j = k
          · rw [hjk, Function.update_self, if_pos rfl]
          · rw [Function.update_of_ne hjk, if_neg hjk, Nat.add_zero]
        · rw [if_pos ((sound.rejects_iff hrep).mpr hlegal), ih,
            sound.boardPlay_of_illegal hrep hlegal]

/-- **The stones of a game**: those of a color that were accepted are on the
board, or counted among the captures of the opponent. -/
theorem material_of_run (r : Run) (j : Color) :
    (tally r.ms).1 = calls r.ms ∧ (tally r.ms).2 j =
      {c | (ruleSteps r.ms).stone c = some j}.ncard +
        (calls r.ms).record.captures j.other.stone := by
  obtain ⟨sound, hrep⟩ := sound_calls r.ms
  have hset : {c | (ruleSteps r.ms).stone c = some j} =
      ((points.filter fun c => (calls r.ms).b c = j.stone).toFinset : Set ℕ) := by
    ext c
    rw [List.coe_toFinset, ← hrep.stone]
    show (calls r.ms).stoneAt c = some j ↔ c ∈ points.filter fun c => (calls r.ms).b c = j.stone
    rw [List.mem_filter, decide_eq_true_eq, mem_points, stoneAt_eq_some_iff]
    refine (and_iff_right_of_imp fun hc => ?_).symm
    exact sound.on_of_stone (stoneAt_eq_some_iff.mpr hc ▸ Option.some_ne_none j)
  refine ⟨tally_fst r.ms, ?_⟩
  rw [tally_snd, hset, Set.ncard_coe_finset, List.toFinset_card_of_nodup (nodup_points.filter _),
    ← List.countP_eq_length_filter]
  rfl

end Board

end EstarGo
