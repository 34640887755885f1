import EstarGo.Board.Refinement
import EstarGo.Lib.GoEmbedding

/-!
# Games on the board

Calls of `board_play`, on points and on the margin, legal or not and for any
colors in any order, lead the empty board to the position to which the rules
lead the empty position, and the structures of the board describe it.

Two things bound what is said.  The code checks no coordinate, so one from
`BOARD_MAX_COORDS` on reads and writes whatever stands behind its arrays; and it
ends the process where an assertion fails.  A `Run` does neither: it carries the
proof that its coordinates are those of the arrays and that the assertions have
held after each of its calls.

## Main definitions

* `Run` — calls that the code carries out to their end.
* `ruleSteps` — the same calls under the rules of Go.
* `Run.ofShort` — a game with fewer calls than the list of groups in atari has
  places.

## Main results

* `boardPlay_refines`: the moves that are accepted, and the stones they leave.
* `groups_of_run`: the groups, their stones and liberties, and those in atari.
* `ledger_of_run`: the free points, the neighbor counts and the hash.
-/

namespace EstarGo

open Verif Verif.Go Stones

namespace Board

variable {bd : Board} {ok : Prop} {u v : ℕ} {k : Color}

/-- A call of `board_play`: a stone on a coordinate, or a pass.  What it returns
is left aside; the board tells whether it was played. -/
def call (bd : Board) (m : Color × Option ℕ) : Board :=
  match m.2 with
  | none => (bd.boardPlay GoBoard.posPass m.1).2
  | some v => (bd.boardPlay v m.1).2

/-- The board after some calls, from the empty one. -/
def calls (ms : List (Color × Option ℕ)) : Board := ms.foldl call boardClear

open Classical in
/-- What the rules make of a call: a legal move is played, an illegal one is
not, and a pass ends the ko. -/
noncomputable def ruleStep (p : Position ℕ Color) (m : Color × Option ℕ) : Position ℕ Color :=
  match m.2 with
  | none => passed p
  | some v => if p.legal near Color.other m.1 v then p.play near Color.other m.1 v else p

/-- The position after some calls, from the empty one. -/
noncomputable def ruleSteps (ms : List (Color × Option ℕ)) : Position ℕ Color :=
  ms.foldl ruleStep Position.empty

/-- **One call** keeps the structures, and plays by the rules.  A refused one
leaves the position as it is, on either side. -/
theorem Sound.call (h : Sound ok bd) {p : Position ℕ Color} (hrep : bd.Represents p)
    (few : ok → (occupied bd.stoneAt).ncard + 1 < boardMaxGroups) (m : Color × Option ℕ) :
    Sound ok (bd.call m) ∧ (bd.call m).Represents (ruleStep p m) := by
  obtain ⟨k, _ | v⟩ := m
  · exact (h.boardPlay_pass hrep k).2
  · by_cases hlegal : p.legal near Color.other k v
    · have hstep : ruleStep p (k, some v) = p.play near Color.other k v := if_pos hlegal
      rw [hstep]
      exact (h.boardPlay hrep few hlegal).2
    · have hstep : ruleStep p (k, some v) = p := if_neg hlegal
      have hcall : bd.call (k, some v) = bd :=
        congrArg Prod.snd (h.boardPlay_of_illegal hrep hlegal)
      rw [hstep, hcall]
      exact ⟨h, hrep⟩

/-- **A run** of calls. -/
theorem Sound.run (h : Sound ok bd) {p : Position ℕ Color} (hrep : bd.Represents p)
    (ms : List (Color × Option ℕ))
    (few : ok → ∀ l, l <+: ms → (occupied (l.foldl Board.call bd).stoneAt).ncard + 1 <
      boardMaxGroups) :
    Sound ok (ms.foldl Board.call bd) ∧
      (ms.foldl Board.call bd).Represents (ms.foldl ruleStep p) := by
  induction ms generalizing bd p with
  | nil => exact ⟨h, hrep⟩
  | cons m ms ih =>
      obtain ⟨sound, hrep'⟩ := h.call hrep (fun hok => few hok [] List.nil_prefix) m
      refine ih sound hrep' fun hok l hl => ?_
      exact few hok (m :: l) ((List.prefix_cons_inj m).mpr hl)

theorem sound_calls (ms : List (Color × Option ℕ)) :
    Sound False (calls ms) ∧ (calls ms).Represents (ruleSteps ms) :=
  (sound_boardClear False).run represents_boardClear ms False.elim

/-- The valid moves are the legal ones, on and off the board. -/
theorem Sound.valid_iff_legal (h : Sound ok bd) {p : Position ℕ Color} (hrep : bd.Represents p) :
    bd.boardIsValidPlay k v = true ↔ p.legal near Color.other k v := by
  by_cases hv : onBoard v = true
  · exact h.boardIsValidPlay_iff hrep hv
  · refine iff_of_false (fun hvalid => ?_) fun hlegal => ?_
    · by_cases hfree : bd.b v = .none
      · exact hv (h.onBoard_of_free hfree)
      · have hplay : bd.boardIsValidPlay k v = false := if_pos hfree
        rw [hplay] at hvalid
        exact Bool.false_ne_true hvalid
    · exact hv (h.onBoard_of_free (h.free_of_legal hrep hlegal))

theorem Sound.rejects_iff (h : Sound False bd) {p : Position ℕ Color} (hrep : bd.Represents p) :
    (bd.boardPlay v k).1 = -1 ↔ ¬ p.legal near Color.other k v := by
  constructor
  · intro hret hlegal
    have := (h.boardPlay hrep False.elim hlegal).1
    omega
  · intro hlegal
    rw [h.boardPlay_of_illegal hrep hlegal]

/-! ## Runs -/

/-- The assertions hold while there have been fewer stones than the list of
groups in atari has places. -/
theorem asserted_of_few {ms : List (Color × Option ℕ)}
    (few : ∀ l, l <+: ms → (occupied (ruleSteps l).stone).ncard + 1 < boardMaxGroups) :
    (calls ms).gi.asserted = true := by
  obtain ⟨sound, -⟩ := (sound_boardClear (∀ l, l <+: ms →
    (occupied (ruleSteps l).stone).ncard + 1 < boardMaxGroups)).run represents_boardClear ms
      fun few l hl => (sound_calls l).2.stone ▸ few l hl
  exact sound.groups.atari.asserted few

/-- **A run of `board_play`**, which the code carries out to its end: every
coordinate is one of the arrays, and no assertion has failed in any of the
calls. -/
structure Run where
  ms : List (Color × Option ℕ)
  inside : ∀ m ∈ ms, ∀ v ∈ m.2, v < boardMaxCoords
  asserted : ∀ l, l <+: ms → (calls l).gi.asserted = true

/-- A call adds at most one stone, and may remove any. -/
theorem occupied_ruleStep_subset (p : Position ℕ Color) (m : Color × Option ℕ) :
    ∃ v, occupied (ruleStep p m).stone ⊆ insert v (occupied p.stone) := by
  obtain ⟨k, _ | v⟩ := m
  · exact ⟨0, Set.subset_insert _ _⟩
  refine ⟨v, fun u hu => ?_⟩
  by_cases hlegal : p.legal near Color.other k v
  · have hstep : ruleStep p (k, some v) = p.play near Color.other k v := if_pos hlegal
    rw [hstep] at hu
    by_cases huv : u = v
    · exact .inl huv
    · obtain ⟨c, hc⟩ := Option.ne_none_iff_exists'.mp hu
      exact .inr fun hnone => Option.some_ne_none c ((stone_of_play huv hc).symm.trans hnone)
  · have hstep : ruleStep p (k, some v) = p := if_neg hlegal
    rw [hstep] at hu
    exact .inr hu

/-- There are no more stones than there have been calls. -/
theorem ncard_occupied_ruleSteps_le (ms : List (Color × Option ℕ)) :
    (occupied (ruleSteps ms).stone).Finite ∧
      (occupied (ruleSteps ms).stone).ncard ≤ ms.length := by
  induction ms using List.reverseRecOn with
  | nil =>
      have hempty : occupied (ruleSteps []).stone = ∅ :=
        Set.eq_empty_of_forall_notMem fun u hu => hu rfl
      rw [hempty]
      exact ⟨Set.finite_empty, (Set.ncard_empty ℕ).le⟩
  | append_singleton ms m ih =>
      obtain ⟨finite, le⟩ := ih
      have hstep : ruleSteps (ms ++ [m]) = ruleStep (ruleSteps ms) m := by
        unfold ruleSteps
        rw [List.foldl_append]
        rfl
      obtain ⟨v, sub⟩ := occupied_ruleStep_subset (ruleSteps ms) m
      rw [← hstep] at sub
      refine ⟨(finite.insert v).subset sub, ?_⟩
      calc (occupied (ruleSteps (ms ++ [m])).stone).ncard
          ≤ (insert v (occupied (ruleSteps ms).stone)).ncard :=
            Set.ncard_le_ncard sub (finite.insert v)
        _ ≤ (occupied (ruleSteps ms).stone).ncard + 1 := Set.ncard_insert_le _ _
        _ ≤ (ms ++ [m]).length := by rw [List.length_append]; exact Nat.succ_le_succ le

/-- A game that is short is a run. -/
def Run.ofShort (ms : List (Color × Option ℕ))
    (inside : ∀ m ∈ ms, ∀ v ∈ m.2, v < boardMaxCoords)
    (short : ms.length + 1 < boardMaxGroups) : Run where
  ms := ms
  inside := inside
  asserted l hl := asserted_of_few fun l' hl' => by
    have hstones := (ncard_occupied_ruleSteps_le l').2
    have hlength := (hl'.trans hl).length_le
    omega

/-- **The board refines the rules**: after any run the stones are those of the
rules, and on the coordinates of the arrays `board_is_valid_play` accepts the
legal moves and no others; so does `board_play`, where its assertions hold. -/
theorem boardPlay_refines (r : Run) :
    (calls r.ms).stoneAt = (ruleSteps r.ms).stone ∧
      ∀ k v, v < boardMaxCoords →
        ((calls r.ms).boardIsValidPlay k v = true ↔
          (ruleSteps r.ms).legal near Color.other k v) ∧
        (((calls r.ms).boardPlay v k).2.gi.asserted = true →
          (((calls r.ms).boardPlay v k).1 = -1 ↔
            ¬ (ruleSteps r.ms).legal near Color.other k v)) := by
  obtain ⟨sound, hrep⟩ := sound_calls r.ms
  exact ⟨hrep.stone, fun k v _ => ⟨sound.valid_iff_legal hrep, fun _ => sound.rejects_iff hrep⟩⟩

/-! ## The groups of a game

`Sound` says what the structures are in terms of labels.  Here the same is said
of the groups and liberties of the rules, which name no label. -/

/-- A liberty of the group of a stone: an empty point next to one of its
stones. -/
def IsLiberty (s : ℕ → Option Color) (k : Color) (u e : ℕ) : Prop :=
  s e = none ∧ ∃ w ∈ Go.group near s k u, near w e

namespace Sound

variable (h : Sound ok bd)
include h

/-- Between moves the liberties of the group of a label are those of the
rules. -/
theorem mem_openLibs (hu : bd.stoneAt u = some k) (e : ℕ) :
    e ∈ bd.openLibs 0 (fun _ => False) (bd.g u) ↔ IsLiberty bd.stoneAt k u e := by
  have hg : bd.g u ≠ 0 := h.groups.labels.ne_null hu
  unfold IsLiberty
  rw [h.groups.group_eq rfl hu]
  constructor
  · rintro ⟨⟨-, hfree, w, hw, he⟩, -⟩
    have hw0 : bd.g w ≠ 0 := fun h0 => hg (hw.symm.trans h0)
    exact ⟨stoneAt_of_free hfree, w, hw, h.groups.on w hw0, h.onBoard_of_free hfree, he⟩
  · rintro ⟨hfree, w, hw, hnear⟩
    refine ⟨⟨hg, (h.ledger.stoneAt_eq_none_iff hnear.2.1).mp hfree, w, hw, hnear.2.2⟩, ?_⟩
    exact fun _ => id

/-- A group is listed exactly where it has one liberty. -/
theorem mem_atari (hu : bd.stoneAt u = some k) :
    bd.g u ∈ bd.gi.c ↔ ∃! e, IsLiberty bd.stoneAt k u e := by
  rw [h.groups.atari.mem, (h.groups.libs (bd.g u)).length_eq_one_iff (by decide)]
  constructor
  · rintro ⟨x, hx⟩
    have hmem (e : ℕ) : IsLiberty bd.stoneAt k u e ↔ e = x := by
      rw [← h.mem_openLibs hu, hx]
      exact Set.mem_singleton_iff
    exact ⟨x, (hmem x).mpr rfl, fun e he => (hmem e).mp he⟩
  · rintro ⟨x, hx, only⟩
    refine ⟨x, Set.eq_singleton_iff_unique_mem.mpr ⟨(h.mem_openLibs hu x).mpr hx, fun e he => ?_⟩⟩
    exact only e ((h.mem_openLibs hu e).mp he)

/-- The bases in the list of groups in atari are stones. -/
theorem base_of_atari {r : ℕ} (hr : r ∈ bd.gi.c) : ∃ k, bd.stoneAt r = some k ∧ bd.g r = r := by
  have hne : bd.gi.lib r ≠ [] := by
    intro hnil
    have := (h.groups.atari.mem r).mp hr
    rw [hnil] at this
    exact absurd this (by decide)
  obtain ⟨e, he⟩ := List.exists_mem_of_ne_nil _ hne
  obtain ⟨⟨h0, -, w, hw, -⟩, -⟩ := (h.groups.libs r).sub e he
  have hbase := h.groups.base (u := w) (hw.symm ▸ h0)
  rw [hw] at hbase
  have hs : bd.stoneAt r ≠ none :=
    fun hs => h0 (hbase.symm.trans ((h.groups.labels.stone r).mpr hs))
  obtain ⟨k, hk⟩ := Option.ne_none_iff_exists'.mp hs
  exact ⟨k, hk, hbase⟩

end Sound

/-- **The groups of a game**: `foreach_in_group` lists the stones of the group
once each, the liberties are up to 10, and all of them while they are no more
than 5, and the list of groups in atari holds the base of every group with one
liberty. -/
theorem groups_of_run (r : Run) (hu : (calls r.ms).stoneAt u = some k) :
    ((calls r.ms).foreachInGroup ((calls r.ms).g u)).Nodup ∧
      (∀ w, w ∈ (calls r.ms).foreachInGroup ((calls r.ms).g u) ↔
        w ∈ Go.group near (calls r.ms).stoneAt k u) ∧
      Sample groupKeepLibs groupRefillLibs ((calls r.ms).gi.lib ((calls r.ms).g u))
        {e | IsLiberty (calls r.ms).stoneAt k u e} ∧
      ((calls r.ms).g u ∈ (calls r.ms).gi.c ↔ ∃! e, IsLiberty (calls r.ms).stoneAt k u e) := by
  obtain ⟨sound, -⟩ := sound_calls r.ms
  obtain ⟨-, nodup, mem⟩ := sound.groups.foreachInGroup (sound.groups.labels.ne_null hu)
  refine ⟨nodup, fun w => ?_, ?_, sound.mem_atari hu⟩
  · rw [mem, sound.groups.group_eq rfl hu]
    exact Iff.rfl
  · exact (sound.groups.libs ((calls r.ms).g u)).congr (Set.ext (sound.mem_openLibs hu))

/-- A wall of black stones that are joined and pressed, so that its list of
liberties is filled up again; a black stone in a corner that is captured, and a
white one that is in atari. -/
def skirmish : Run := Run.ofShort
  [(.black, some 110), (.black, some 112), (.black, some 111), (.black, some 114),
    (.black, some 113), (.black, some 115), (.white, some 89), (.white, some 131),
    (.white, some 91), (.white, some 133), (.white, some 132), (.black, some 22),
    (.white, some 23), (.white, some 43), (.white, some 40), (.black, some 39)]
  (by decide) (by decide)

/-- Six stones joined from three groups with their nine liberties, four of which
were not in the list before it was filled up; one stone captured, and one in
atari. -/
theorem groups_of_run_skirmish :
    (calls skirmish.ms).foreachInGroup 110 = [110, 114, 115, 112, 113, 111] ∧
      (calls skirmish.ms).gi.lib 110 = [93, 109, 134, 90, 92, 135, 94, 116, 136] ∧
      (calls skirmish.ms).record.captures .white = 1 ∧ (calls skirmish.ms).gi.c = [40] ∧
      (∀ w, w ∈ (calls skirmish.ms).foreachInGroup ((calls skirmish.ms).g 110) ↔
        w ∈ Go.group near (calls skirmish.ms).stoneAt .black 110) ∧
      Sample groupKeepLibs groupRefillLibs
        ((calls skirmish.ms).gi.lib ((calls skirmish.ms).g 110))
        {e | IsLiberty (calls skirmish.ms).stoneAt .black 110 e} ∧
      ∃! e, IsLiberty (calls skirmish.ms).stoneAt .white 40 e := by
  have seen : (calls skirmish.ms).foreachInGroup 110 = [110, 114, 115, 112, 113, 111] ∧
      (calls skirmish.ms).gi.lib 110 = [93, 109, 134, 90, 92, 135, 94, 116, 136] ∧
      (calls skirmish.ms).record.captures .white = 1 ∧ (calls skirmish.ms).gi.c = [40] ∧
      (calls skirmish.ms).stoneAt 110 = some .black ∧
      (calls skirmish.ms).stoneAt 40 = some .white ∧ (calls skirmish.ms).g 40 = 40 := by
    decide +kernel
  obtain ⟨stones, libs, captures, atari, wall, corner, base⟩ := seen
  obtain ⟨-, group, sample, -⟩ := groups_of_run skirmish wall
  obtain ⟨-, -, -, one⟩ := groups_of_run skirmish corner
  refine ⟨stones, libs, captures, atari, group, sample, one.mp ?_⟩
  rw [base, atari]
  exact List.mem_singleton_self 40

/-! ## The counts of a game

The hash is kept up to date by each stone that comes or goes, and is the
exclusive or of the keys of those that are there. -/

/-- The hash of the stones: the exclusive or of their keys. -/
theorem zobrist_eq (bd : Board) : zobrist bd.b =
    (points.filterMap fun c => (bd.stoneAt c).map (hashAt c)).foldr (· ^^^ ·) 0 := by
  have key (c : ℕ) : zobristKey c (bd.b c) = ((bd.stoneAt c).map (hashAt c)).getD 0 := by
    unfold stoneAt
    cases bd.b c <;> rfl
  unfold zobrist xorKeys
  induction points with
  | nil => rfl
  | cons c l ih =>
      rw [List.foldr_cons, key, ih]
      cases hc : bd.stoneAt c with
      | none =>
          rw [List.filterMap_cons_none (by rw [hc]; rfl)]
          exact UInt64.zero_xor
      | some k =>
          rw [List.filterMap_cons_some (by rw [hc]; rfl)]
          rfl

/-- **What the board keeps count of** in a game: the list of free points and its
index, the neighbors of each color, and the hash. -/
theorem ledger_of_run (r : Run) :
    ((calls r.ms).free.f.Nodup ∧ ∀ c, c ∈ (calls r.ms).free.f ↔
        onBoard c = true ∧ (ruleSteps r.ms).stone c = none) ∧
      (∀ c ∈ (calls r.ms).free.f, (calls r.ms).free.f[(calls r.ms).free.fmap c]? = some c) ∧
      (∀ c k, onBoard c = true → (calls r.ms).n c k.stone =
        (foreachNeighbor c).countP fun d => (ruleSteps r.ms).stone d = some k) ∧
      (calls r.ms).hashes.hash =
        (points.filterMap fun c => ((ruleSteps r.ms).stone c).map (hashAt c)).foldr
          (· ^^^ ·) 0 := by
  obtain ⟨sound, hrep⟩ := sound_calls r.ms
  have ledger := sound.ledger
  rw [← hrep.stone]
  refine ⟨⟨ledger.indexed.nodup, fun c => ?_⟩, fun c hc => ?_, fun c k hc => ?_, ?_⟩
  · rw [ledger.free, and_iff_left (Set.notMem_empty c)]
    constructor
    · exact fun hfree => ⟨sound.onBoard_of_free hfree, stoneAt_of_free hfree⟩
    · exact fun ⟨hon, hfree⟩ => (ledger.stoneAt_eq_none_iff hon).mp hfree
  · rw [ledger.indexed.place_eq hc]
    exact List.getElem?_idxOf hc
  · rw [ledger.counts c _ hc k.stone_ne_none]
    simp only [stoneAt_eq_some_iff]
    rfl
  · rw [ledger.hash, zobrist_eq]

end Board

end EstarGo
