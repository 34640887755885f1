import EstarGo.Board.Runs

/-!
# The list of groups in atari

The array of the groups in atari has room for two thirds of the points, and an
assertion guards it.  A game can bring more groups into atari than that: stones
that are alone, each of them next to one empty point.

## Main definitions

* `atariGroups` — the groups of a position that have one liberty.
* `Airy` — stones that can be put down in any order without a capture.
* `crowded` — a position with more groups in atari than the list has places.

## Main results

* `asserted_of_run`: the assertion holds while the stones are few, and has
  failed where too many groups are in atari.
* `asserted_of_run_crowded`: there is a game that fails it.

## Design notes

**How many groups can be in atari** is a question the source answers in a
comment beside the bound, and too low.  The position below has no eye and no
group of two stones; it was found by a search, and only its rows are given, as
one number for each.

**A game, not only a position.**  That the position arises in play is shown for
any airy position: no stone of it ever captures, so the stones may come in the
order of the points, with passes between two of one color.
-/

namespace EstarGo

open Verif Verif.Go Stones

namespace Board

variable {bd : Board} {ok : Prop} {u v : ℕ} {k : Color}

/-! ## The list of groups in atari -/

/-- The groups that have one liberty, as sets of stones.  They are taken from
the stones alone, so they can be set against the list that the board keeps. -/
def atariGroups (s : ℕ → Option Color) : Set (Set ℕ) :=
  {G | ∃ k u, s u = some k ∧ G = Go.group near s k u ∧ ∃! e, IsLiberty s k u e}

/-- The list of groups in atari has an entry for each of them: the bases of two
groups differ. -/
theorem Sound.length_atari (h : Sound ok bd) :
    bd.gi.c.length = (atariGroups bd.stoneAt).ncard := by
  have himage : (fun r => {w | bd.g w = r}) '' (bd.gi.c.toFinset : Set ℕ) =
      atariGroups bd.stoneAt := by
    ext G
    constructor
    · rintro ⟨r, hr, rfl⟩
      have hr : r ∈ bd.gi.c := List.mem_toFinset.mp hr
      obtain ⟨k, hk, hbase⟩ := h.base_of_atari hr
      refine ⟨k, r, hk, ?_, (h.mem_atari hk).mp (hbase.symm ▸ hr)⟩
      rw [h.groups.group_eq rfl hk, hbase]
    · rintro ⟨k, u, hk, rfl, hlib⟩
      refine ⟨bd.g u, List.mem_toFinset.mpr ((h.mem_atari hk).mpr hlib), ?_⟩
      exact (h.groups.group_eq rfl hk).symm
  have hinj : Set.InjOn (fun r => {w | bd.g w = r}) (bd.gi.c.toFinset : Set ℕ) := by
    intro r hr q _ hrq
    obtain ⟨k, -, hbase⟩ := h.base_of_atari (List.mem_toFinset.mp hr)
    have hrq : {w | bd.g w = r} = {w | bd.g w = q} := hrq
    have hmem : r ∈ {w | bd.g w = q} := hrq ▸ hbase
    exact hbase.symm.trans hmem
  rw [← himage, hinj.ncard_image, Set.ncard_coe_finset,
    List.toFinset_card_of_nodup h.groups.atari.nodup]

/-- **The assertions of a game** on coordinates of the arrays: they hold while
there have been fewer stones than the list of groups in atari has places, and
one of them has failed where more groups are in atari than it has places. -/
theorem asserted_of_run (ms : List (Color × Option ℕ))
    (inside : ∀ m ∈ ms, ∀ v ∈ m.2, v < boardMaxCoords) :
    ((∀ l, l <+: ms → (occupied (ruleSteps l).stone).ncard + 1 < boardMaxGroups) →
        (calls ms).gi.asserted = true ∧ ∃ r : Run, r.ms = ms) ∧
      (boardMaxGroups < (atariGroups (ruleSteps ms).stone).ncard →
        (calls ms).gi.asserted = false) := by
  constructor
  · intro few
    refine ⟨asserted_of_few few, ⟨ms, inside, fun l hl => ?_⟩, rfl⟩
    exact asserted_of_few fun l' hl' => few l' (hl'.trans hl)
  · intro many
    obtain ⟨sound, hrep⟩ := sound_calls ms
    rw [← hrep.stone, ← sound.length_atari] at many
    by_contra hne
    have := sound.groups.atari.bounded (Bool.not_eq_false _ ▸ hne)
    omega

/-! ## A game of stones that are alone

A stone that has an empty point next to it is legal and captures nothing, if the
same holds of the stones around it. -/

/-- Every stone is next to a point that stays empty.  So no group is ever
without liberties while the stones are put down. -/
def Airy (s : ℕ → Option Color) : Prop := ∀ u, s u ≠ none → ∃ e, near u e ∧ s e = none

/-- **A stone among airy stones** is legal, and captures nothing.  It has a
liberty at once, and so has everything around it. -/
theorem play_stone_of_airy {p : Position ℕ Color} (hv : p.stone v = none)
    (airy : Airy (Go.place p.stone k v)) : p.legal near Color.other k v ∧
      (p.play near Color.other k v).stone = Go.place p.stone k v := by
  have alive (d : ℕ) (c : Color) (hd : Go.place p.stone k v d = some c) :
      HasLiberty near (Go.place p.stone k v) c d := by
    obtain ⟨e, hnear, he⟩ := airy d (hd ▸ Option.some_ne_none c)
    exact ⟨d, self_mem_group, e, hnear, he⟩
  have hcaptured : captured near Color.other p.stone k v = ∅ := by
    refine Set.eq_empty_of_forall_notMem ?_
    rintro u ⟨d, -, hd, -, hdead⟩
    exact hdead (alive d k.other hd)
  have hafter : afterCapture near Color.other p.stone k v = Go.place p.stone k v := by
    funext u
    exact remove_of_not_mem (hcaptured ▸ Set.notMem_empty u)
  constructor
  · obtain ⟨e, hnear, he⟩ := airy v (place_self p.stone k v ▸ Option.some_ne_none k)
    have hev : e ≠ v := fun hev => by
      rw [hev, place_self] at he
      exact Option.some_ne_none k he
    rw [place_of_ne hev] at he
    exact ⟨hv, .inl fun hs => Option.some_ne_none _ ((hs e hnear).symm.trans he)⟩
  · funext u
    show remove (suicide near Color.other p.stone k v) (afterCapture near Color.other p.stone k v) u
      = _
    rw [remove_of_not_mem, hafter]
    rintro ⟨-, hdead⟩
    rw [hafter] at hdead
    exact hdead (alive v k (place_self p.stone k v))

/-- The calls that put some stones on the board, in the order of a list of
points. -/
def placing (s : ℕ → Option Color) (l : List ℕ) : List (Color × Option ℕ) :=
  l.filterMap fun c => (s c).map fun k => (k, some c)

/-- **Airy stones** can be put on the board in any order: after some of them the
position is those stones. -/
theorem ruleSteps_placing {s : ℕ → Option Color} (airy : Airy s) {l : List ℕ} (nodup : l.Nodup)
    (u : ℕ) : (ruleSteps (placing s l)).stone u = if u ∈ l then s u else none := by
  induction l using List.reverseRecOn generalizing u with
  | nil => rfl
  | append_singleton l v ih =>
      obtain ⟨hl, -, hvl⟩ := List.nodup_append.mp nodup
      have hv : v ∉ l := fun hv => hvl v hv v (List.mem_singleton_self v) rfl
      have ih := ih hl
      have hrun : ruleSteps (placing s (l ++ [v])) =
          (placing s [v]).foldl ruleStep (ruleSteps (placing s l)) := by
        unfold placing ruleSteps
        rw [List.filterMap_append, List.foldl_append]
      have hsplit : (u ∈ l ++ [v]) ↔ u ∈ l ∨ u = v := by
        rw [List.mem_append, List.mem_singleton]
      rw [hrun]
      cases hsv : s v with
      | none =>
          have hnil : placing s [v] = [] := List.filterMap_cons_none (by rw [hsv]; rfl)
          rw [hnil, List.foldl_nil, ih]
          by_cases huv : u = v
          · rw [huv, if_neg hv, hsv, ite_self]
          · simp only [hsplit, huv, or_false]
      | some k =>
          have hone : placing s [v] = [(k, some v)] := by
            unfold placing
            rw [List.filterMap_cons_some (by rw [hsv]; rfl), List.filterMap_nil]
          have hplace (w : ℕ) : Go.place (ruleSteps (placing s l)).stone k v w =
              if w ∈ l ∨ w = v then s w else none := by
            by_cases hwv : w = v
            · rw [hwv, place_self, if_pos (.inr rfl), hsv]
            · rw [place_of_ne hwv, ih]
              simp only [hwv, or_false]
          have hfree : (ruleSteps (placing s l)).stone v = none := (ih v).trans (if_neg hv)
          obtain ⟨hlegal, hstone⟩ := play_stone_of_airy (k := k) hfree fun w hw => by
            rw [hplace] at hw
            have hin : w ∈ l ∨ w = v := by
              by_contra hout
              exact hw (if_neg hout)
            rw [if_pos hin] at hw
            obtain ⟨e, hnear, he⟩ := airy w hw
            exact ⟨e, hnear, by rw [hplace, he, ite_self]⟩
          have hstep : ruleStep (ruleSteps (placing s l)) (k, some v) =
              (ruleSteps (placing s l)).play near Color.other k v := if_pos hlegal
          rw [hone, List.foldl_cons, List.foldl_nil, hstep, hstone, hplace]
          simp only [hsplit]

/-- Stones that are alone and have one liberty are all in the list, each as the
base of its group. -/
theorem Sound.length_le_atari (h : Sound ok bd) {l : List ℕ} (nodup : l.Nodup)
    (alone : ∀ u ∈ l, ∃ k, bd.stoneAt u = some k ∧ (∀ w, near u w → bd.stoneAt w ≠ some k) ∧
      ∃! e, near u e ∧ bd.stoneAt e = none) : l.length ≤ bd.gi.c.length := by
  have group (u : ℕ) (k : Color) (hsep : ∀ w, near u w → bd.stoneAt w ≠ some k) (w : ℕ)
      (hw : w ∈ Go.group near bd.stoneAt k u) : w = u := by
    obtain rfl | ⟨v, hlink, -⟩ := Relation.ReflTransGen.cases_head hw
    · rfl
    · exact absurd hlink.2.2 (hsep v hlink.1)
  have hinj : (l.map bd.g).Nodup := by
    refine (List.nodup_map_iff_inj_on nodup).mpr fun u hu w _ hg => ?_
    obtain ⟨k, hk, hsep, -⟩ := alone u hu
    refine (group u k hsep w ?_).symm
    rw [h.groups.group_eq rfl hk]
    exact hg.symm
  have hsub : l.map bd.g ⊆ bd.gi.c := by
    intro r hr
    obtain ⟨u, hu, rfl⟩ := List.mem_map.mp hr
    obtain ⟨k, hk, hsep, e, ⟨hnear, he⟩, only⟩ := alone u hu
    refine (h.mem_atari hk).mpr ⟨e, ⟨he, u, self_mem_group, hnear⟩, ?_⟩
    rintro e' ⟨he', w, hw, hnear'⟩
    obtain rfl := group u k hsep w hw
    exact only e' ⟨hnear', he'⟩
  have hle := (List.subperm_of_subset hinj hsub).length_le
  rwa [List.length_map] at hle

/-- The empty points of the crowded board, a bit for each column of a row.  They
are spread so that more stones are left with one liberty than the list has
places for. -/
def crowdedRows : List ℕ :=
  [148624, 136327, 33824, 270600, 67651, 16912, 397444, 33825, 270600, 67650, 16912, 397445,
    33825, 8456, 460866, 16914, 4240, 492677, 9764]

/-- The stones of the crowded board.  Points are colored as on a chessboard, so
neighbors differ in color and every stone is a group. -/
def crowded (c : ℕ) : Option Color :=
  if onBoard c = false ∨ (crowdedRows.getD (c / 21 - 1) 0).testBit (c % 21 - 1) = true then none
  else if (c / 21 + c % 21) % 2 = 0 then some .black else some .white

/-- The stones of the crowded board that have one liberty; as neighbors differ
in color, each is a group. -/
def crowdedAlone : List ℕ := points.filter fun u => crowded u ≠ none ∧
  ∃ e ∈ foreachNeighbor u, (onBoard e = true ∧ crowded e = none) ∧
    ∀ e' ∈ foreachNeighbor u, onBoard e' = true ∧ crowded e' = none → e' = e

/-- Each stone of the crowded board has an empty point next to it. -/
theorem airy_crowded : Airy crowded := by
  have hairy : ∀ u ∈ points, crowded u ≠ none →
      ∃ e ∈ foreachNeighbor u, onBoard e = true ∧ crowded e = none := by decide +kernel
  intro u hu
  have hon : onBoard u = true := by
    by_contra hout
    exact hu (if_pos (.inl (Bool.eq_false_iff.mpr hout)))
  obtain ⟨e, hmem, he, hnone⟩ := hairy u (mem_points.mpr hon) hu
  exact ⟨e, ⟨hon, he, hmem⟩, hnone⟩

/-- So the game that puts them down ends in the crowded board. -/
theorem stone_crowded (u : ℕ) : (ruleSteps (placing crowded points)).stone u = crowded u := by
  rw [ruleSteps_placing airy_crowded nodup_points]
  by_cases hon : onBoard u = true
  · exact if_pos (mem_points.mpr hon)
  · rw [if_neg fun hmem => hon (mem_points.mp hmem)]
    exact (if_pos (.inl (Bool.eq_false_iff.mpr hon))).symm

/-- More groups are in atari than the list has places. -/
theorem many_crowded :
    boardMaxGroups < (atariGroups (ruleSteps (placing crowded points)).stone).ncard := by
  obtain ⟨sound, hrep⟩ := sound_calls (placing crowded points)
  have hstone (u : ℕ) : (calls (placing crowded points)).stoneAt u = crowded u := by
    rw [hrep.stone, stone_crowded]
  have hcolors : ∀ u ∈ points, ∀ w ∈ foreachNeighbor u, crowded u ≠ none →
      crowded w ≠ crowded u := by decide +kernel
  have hcount : boardMaxGroups < crowdedAlone.length := by decide +kernel
  rw [← hrep.stone, ← sound.length_atari]
  refine Nat.lt_of_lt_of_le hcount (sound.length_le_atari (nodup_points.filter _) ?_)
  intro u hu
  obtain ⟨hu, hlone⟩ := List.mem_filter.mp hu
  obtain ⟨hne, e, hmem, ⟨hon, he⟩, only⟩ := of_decide_eq_true hlone
  obtain ⟨k, hk⟩ := Option.ne_none_iff_exists'.mp hne
  simp only [hstone]
  refine ⟨k, hk, fun w hnear => hk ▸ hcolors u hu w hnear.2.2 hne, e, ⟨⟨?_, hon, hmem⟩, he⟩, ?_⟩
  · exact mem_points.mp hu
  · rintro e' ⟨hnear, he'⟩
    exact only e' hnear.2.2 ⟨hnear.2.1, he'⟩

theorem inside_placing_crowded :
    ∀ m ∈ placing crowded points, ∀ v ∈ m.2, v < boardMaxCoords := by
  intro m hm v hv
  obtain ⟨c, hc, hm⟩ := List.mem_filterMap.mp hm
  obtain ⟨k, -, rfl⟩ := Option.map_eq_some_iff.mp hm
  obtain rfl := Option.some.inj hv
  exact lt_of_onBoard (mem_points.mp hc)

/-- **A game that fails the assertion.**  It is legal throughout, and nothing is
captured in it. -/
theorem asserted_of_run_crowded : (calls (placing crowded points)).gi.asserted = false :=
  (asserted_of_run (placing crowded points) inside_placing_crowded).2 many_crowded

end Board

end EstarGo
